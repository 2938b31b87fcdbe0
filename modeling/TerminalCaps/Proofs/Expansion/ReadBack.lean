import TerminalCaps.Proofs.Bytes.Integers
import TerminalCaps.Proofs.Expansion.Printf

/-!
Decimal fields and the reading of operands. A number in a decimal field is a text of blanks, a sign,
digits and blanks again, however it is padded, so it is read back as the same number.
-/
namespace TerminalCaps.Expansion
open Bytes Template

variable {number : Int32} {body : Bytes}

theorem neg_ofNat_natAbs (h : number < 0) : -Int32.ofNat number.toInt.natAbs = number := by
  have hneg : number.toInt < 0 := Printf.toInt_lt_zero_iff.2 h
  have habs : (number.toInt.natAbs : Int) = -number.toInt := by omega
  rw [← Int32.ofInt_eq_ofNat, habs, Int32.ofInt_neg, Int32.ofInt_toInt, Int32.neg_neg]

theorem ofNat_natAbs (h : ¬ number < 0) : Int32.ofNat number.toInt.natAbs = number := by
  have hnonneg : ¬ number.toInt < 0 := mt Printf.toInt_lt_zero_iff.1 h
  have habs : (number.toInt.natAbs : Int) = number.toInt := by omega
  rw [← Int32.ofInt_eq_ofNat, habs, Int32.ofInt_toInt]

/-- Digits of the absolute value of a number, which zeros may begin. -/
structure IsMagnitude (number : Int32) (body : Bytes) : Prop where
  isDigit : ∀ b ∈ body, isDigit b
  ne_nil : body ≠ []
  value_eq : value body = number.toInt.natAbs

theorem isMagnitude_digits (number : Int32) :
    IsMagnitude number (digits 10 number.toInt.natAbs) :=
  ⟨isDigit_of_mem_digits, digits_ne_nil 10 _, value_digits _⟩

theorem IsMagnitude.zeros (h : IsMagnitude number body) (count : Nat) :
    IsMagnitude number (List.replicate count '0'.toUInt8 ++ body) := by
  have hzero : Bytes.isDigit '0'.toUInt8 := by decide
  refine ⟨?_, List.append_ne_nil_of_right_ne_nil _ h.ne_nil, ?_⟩
  · intro b hb
    obtain hb | hb := List.mem_append.1 hb
    · rw [List.eq_of_mem_replicate hb]
      exact hzero
    · exact h.isDigit b hb
  · rw [value_replicate_zero_append, h.value_eq]

/-- What stands before the digits is a sign that gives the number back, or a blank. -/
theorem exists_sign (spec : FieldSpec) (number : Int32) : ∃ (blanks : Bytes) (sign : Sign),
    signMark spec number = blanks ++ sign.text ∧ (∀ b ∈ blanks, isBlank b) ∧
      sign.apply (Int32.ofNat number.toInt.natAbs) = number := by
  unfold signMark
  by_cases hneg : number < 0
  · rw [if_pos hneg]
    exact ⟨[], .minus, rfl, by simp, neg_ofNat_natAbs hneg⟩
  · have hsame := ofNat_natAbs hneg
    rw [if_neg hneg]
    by_cases hplus : spec.plus
    · rw [if_pos hplus]
      exact ⟨[], .plus, rfl, by simp, hsame⟩
    · rw [if_neg hplus]
      by_cases hspace : spec.space
      · rw [if_pos hspace]
        exact ⟨[' '.toUInt8], .none, rfl, List.forall_mem_singleton.2 rfl, hsame⟩
      · rw [if_neg hspace]
        exact ⟨[], .none, rfl, by simp, hsame⟩

theorem leadingInteger_signMark (spec : FieldSpec) (front rest : Bytes)
    (hfront : ∀ b ∈ front, isBlank b) (hbody : IsMagnitude number body)
    (hrest : ∀ b ∈ rest.head?, ¬ isDigit b) :
    leadingInteger (front ++ signMark spec number ++ (body ++ rest)) = number := by
  obtain ⟨blanks, sign, hmark, hblanks, hsign⟩ := exists_sign spec number
  have hall : ∀ b ∈ front ++ blanks, isBlank b :=
    List.forall_mem_append.2 ⟨hfront, hblanks⟩
  have hread := leadingInteger_append hall sign hbody.isDigit hbody.ne_nil hrest
  rwa [hbody.value_eq, hsign, List.append_assoc front, ← hmark] at hread

theorem leadingInteger_decimal (number : Int32) :
    leadingInteger (decimal number.toInt) = number := by
  have hmark : decimal number.toInt =
      [] ++ signMark {} number ++ (digits 10 number.toInt.natAbs ++ []) := by
    simp only [decimal, signMark, Printf.toInt_lt_zero_iff]
    split <;> simp
  rw [hmark]
  exact leadingInteger_signMark {} [] [] (by simp) (isMagnitude_digits number) (by simp)

/-- Blanks before the sign, zeros after it and blanks behind the digits do not change the number. -/
theorem leadingInteger_pad (spec : FieldSpec) (number : Int32) (width : Nat) (left zeros : Bool) :
    leadingInteger ((decimalNumeral spec number).pad width left zeros) = number := by
  have hbody : IsMagnitude number (decimalNumeral spec number).body :=
    (isMagnitude_digits number).zeros _
  have hmark : (decimalNumeral spec number).mark = signMark spec number := rfl
  unfold Numeral.pad
  rw [hmark]
  generalize hmissing : width - _ = missing
  have hblanks : ∀ b ∈ List.replicate missing ' '.toUInt8, isBlank b := by
    intro b hb
    rw [List.eq_of_mem_replicate hb]
    decide
  have hrest : ∀ b ∈ (List.replicate missing ' '.toUInt8).head?, ¬ isDigit b := by
    intro b hb
    rw [List.eq_of_mem_replicate (List.mem_of_mem_head? hb)]
    decide
  cases left with
  | true =>
    have hread := leadingInteger_signMark spec [] _ (by simp) hbody hrest
    simpa using hread
  | false =>
    cases zeros with
    | true =>
      have hread := leadingInteger_signMark spec [] [] (by simp) (hbody.zeros missing) (by simp)
      simpa using hread
    | false =>
      have hread := leadingInteger_signMark spec _ [] hblanks hbody (by simp)
      simpa using hread

theorem write_decimal {spec : FieldSpec} {operand : Operand}
    (hwide : ¬ TooWide spec .decimal operand) : spec.write .decimal operand =
      .ok ((decimalNumeral spec operand.toNumber).pad spec.width.toNat spec.left
        (spec.zero && spec.precision.isNone)) := by
  rw [FieldSpec.write]
  exact if_neg fun hlt => hwide ⟨rfl, maxSignedLength_lt_iff.1 hlt⟩

/-- A number that is written in a decimal field, or as a text, is read back as that number. -/
theorem number_read_back {spec : FieldSpec} {number : Int32}
    (hwide : ¬ TooWide spec .decimal (.number number)) :
    (∃ text, spec.write .decimal (.number number) = .ok text ∧ leadingInteger text = number) ∧
      (Operand.string (Operand.number number).toText).toNumber = number :=
  ⟨⟨_, write_decimal hwide, leadingInteger_pad spec number _ _ _⟩, leadingInteger_decimal number⟩

theorem number_read_back_least :
    let spec : FieldSpec := { width := 14, zero := true }
    ¬ TooWide spec .decimal (.number Int32.minValue) ∧
      spec.write .decimal (.number Int32.minValue) = .ok (ofAscii "-0002147483648") ∧
      leadingInteger (ofAscii "-0002147483648") = Int32.minValue := by
  intro spec
  have hwide : ¬ TooWide spec .decimal (.number Int32.minValue) := by decide
  have hwritten : spec.write .decimal (.number Int32.minValue) = .ok (ofAscii "-0002147483648") := by
    decide +kernel
  obtain ⟨⟨text, htext, hread⟩, -⟩ := number_read_back hwide
  cases hwritten.symm.trans htext
  exact ⟨hwide, hwritten, hread⟩

end TerminalCaps.Expansion

import TerminalCaps.Expansion.Session
import TerminalCaps.Proofs.Expansion.Printf

/-!
The number 0. printf writes no digits for it unless the precision asks for zeros, but a field always
writes one, and one more in the alternate form of an octal number. The fields where this shows are
told apart from all others.
-/
namespace TerminalCaps
open Bytes Template Expansion

namespace Printf

variable {spec : FieldSpec} {conversion : Conversion}

/-- The zeros that printf writes for 0: as many as the precision says, and one at least in the
alternate form of an octal number. -/
def zeros (spec : FieldSpec) (conversion : Conversion) : Nat :=
  if conversion = .octal ∧ spec.alternate then max 1 (precision spec) else precision spec

/-- The zeros that a field writes for 0. -/
def writtenZeros (spec : FieldSpec) (conversion : Conversion) : Nat :=
  if conversion = .octal ∧ spec.alternate then max 2 (leastDigits spec) else max 1 (leastDigits spec)

theorem digits_zero (conversion : Conversion) : digits 0 conversion = [] := by
  cases conversion <;> simp [digits, significant]

theorem body_zero (spec : FieldSpec) (conversion : Conversion) :
    body spec conversion 0 = List.replicate (zeros spec conversion) '0'.toUInt8 := by
  simp only [body, zeros, digits_zero, List.leftpad, List.length_nil, Nat.sub_zero, List.append_nil]
  by_cases hoctal : conversion = .octal ∧ spec.alternate
  · cases hprecision : precision spec with
    | zero => simp [hoctal]
    | succ n => simp [hoctal, List.replicate_succ]
  · rw [if_neg hoctal, if_neg fun hzero => hoctal ⟨hzero.1, hzero.2.1⟩]

theorem zeroExtend_zero (least : Nat) :
    zeroExtend least ['0'.toUInt8] = List.replicate (max 1 least) '0'.toUInt8 := by
  have hlength : max 1 least = least - 1 + 1 := by omega
  rw [hlength, List.replicate_succ']
  rfl

/-- The number 0 is written with its sign and zeros, and has no radix mark. -/
theorem numeral?_zero (spec : FieldSpec) (hconversion : conversion ≠ .string) :
    numeral? spec 0 conversion =
      some ⟨mark spec 0 conversion, List.replicate (writtenZeros spec conversion) '0'.toUInt8⟩ := by
  have hdigits : ∀ base ∈ [8, 10, 16], Bytes.digits base 0 = ['0'.toUInt8] := by decide
  have hcapital : capitalHexDigits 0 = ['0'.toUInt8] := by decide
  have hnatAbs : (0 : Int32).toInt.natAbs = 0 := by decide
  have htoNat : (0 : Int32).toUInt32.toNat = 0 := by decide
  cases conversion with
  | decimal =>
    rw [numeral?, decimalNumeral, mark_decimal, hnatAbs, hdigits 10 (by simp), zeroExtend_zero]
    simp [writtenZeros]
  | octal =>
    have halternate : max 2 (leastDigits spec) = max 1 (leastDigits spec - 1) + 1 := by omega
    rw [numeral?, octalNumeral, htoNat, hdigits 8 (by simp), zeroExtend_zero, zeroExtend_zero]
    by_cases h : spec.alternate
    · simp [writtenZeros, mark, h, halternate, List.replicate_succ]
    · simp [writtenZeros, mark, h]
  | hex =>
    rw [numeral?, hexNumeral, htoNat, hdigits 16 (by simp)]
    simp [writtenZeros, mark, zeroExtend_zero]
  | capitalHex =>
    rw [numeral?, hexNumeral, htoNat, hcapital]
    simp [writtenZeros, mark, zeroExtend_zero]
  | string => exact absurd rfl hconversion

section Filling

variable {width : Nat} {left fillsZeros : Bool} {m : Bytes}

theorem not_mem_mark_zero (spec : FieldSpec) (conversion : Conversion) :
    '0'.toUInt8 ∉ mark spec 0 conversion := by
  have hsigns : ∀ sign ∈ ["-", "+", " "], '0'.toUInt8 ∉ ofAscii sign := by decide
  cases conversion with
  | decimal =>
    simp only [mark]
    split_ifs
    · exact hsigns _ (by simp)
    · exact hsigns _ (by simp)
    · exact hsigns _ (by simp)
    · simp
  | _ => simp [mark]

/-- The zeros of a filled field, when its mark has none. -/
theorem count_fill (hm : '0'.toUInt8 ∉ m) (k : Nat) :
    (fill width left fillsZeros ⟨m, List.replicate k '0'.toUInt8⟩).count '0'.toUInt8 =
      if left = false ∧ fillsZeros = true then max (width - m.length) k else k := by
  have hspaces : ∀ n, (List.replicate n ' '.toUInt8).count '0'.toUInt8 = 0 := by
    intro n
    rw [List.count_replicate, if_neg (by decide)]
  have hmark : m.count '0'.toUInt8 = 0 := List.count_eq_zero_of_not_mem hm
  unfold fill
  cases left with
  | true => simp [List.rightpad, hspaces, hmark]
  | false =>
    cases fillsZeros with
    | true =>
      simp [List.leftpad, hmark]
      omega
    | false => simp [List.leftpad, hspaces, hmark]

/-- More zeros make another field, unless it is filled with zeros up to a width that has room for
them. -/
theorem fill_zeros_eq_iff (hm : '0'.toUInt8 ∉ m) {j k : Nat} (h : j < k) :
    fill width left fillsZeros ⟨m, List.replicate k '0'.toUInt8⟩ =
        fill width left fillsZeros ⟨m, List.replicate j '0'.toUInt8⟩ ↔
      left = false ∧ fillsZeros = true ∧ k ≤ width - m.length := by
  constructor
  · intro heq
    have hcount := congrArg (List.count '0'.toUInt8) heq
    rw [count_fill hm, count_fill hm] at hcount
    split_ifs at hcount with hfills
    · exact ⟨hfills.1, hfills.2, by omega⟩
    · omega
  · intro hfills
    obtain ⟨rfl, rfl, hk⟩ := hfills
    have hroom : width - m.length - k + k = width - m.length - j + j := by omega
    simp [fill, List.leftpad, List.replicate_append_replicate, hroom]

theorem fill_of_le {n : Numeral} (h : width ≤ (n.mark ++ n.body).length) :
    fill width left fillsZeros n = n.mark ++ n.body := by
  rw [List.length_append] at h
  have hnothing : width - (n.mark.length + n.body.length) = 0 := by omega
  have hbody : width - n.mark.length - n.body.length = 0 := by omega
  unfold fill
  split_ifs <;> simp [List.leftpad, List.rightpad, hnothing, hbody]

end Filling

end Printf

namespace Expansion
open Printf

/-- The fields in which 0 has a zero too many: those that ask for no digits, and those of alternate
octal numbers that ask for at most one, unless the width has to be filled with zeros anyway. -/
def ExtraZero (spec : FieldSpec) (conversion : Conversion) : Prop :=
  if conversion = .octal ∧ spec.alternate then
    spec.precision = some 0 ∨ spec.precision = some 1 ∨
      spec.precision = none ∧ ¬ (spec.left = false ∧ spec.zero ∧ 2 ≤ spec.width.toNat)
  else spec.precision = some 0

instance (spec : FieldSpec) (conversion : Conversion) : Decidable (ExtraZero spec conversion) :=
  inferInstanceAs (Decidable (ite _ _ _))

variable {spec : FieldSpec} {conversion : Conversion} {operand : Operand}

theorem write_zero (hconversion : conversion ≠ .string) (hzero : operand.toNumber = 0)
    (hwide : ¬ TooWide spec conversion operand) : spec.write conversion operand =
      .ok (fill spec.width.toNat spec.left (fillsWithZeros spec conversion)
        ⟨mark spec 0 conversion, List.replicate (writtenZeros spec conversion) '0'.toUInt8⟩) := by
  apply write_of_numeral? hwide
  rw [hzero]
  exact numeral?_zero spec hconversion

theorem text_zero (hconversion : conversion ≠ .string) (hzero : operand.toNumber = 0) :
    text spec conversion operand =
      fill spec.width.toNat spec.left (fillsWithZeros spec conversion)
        ⟨mark spec 0 conversion, List.replicate (zeros spec conversion) '0'.toUInt8⟩ := by
  rw [text, ← body_zero, ← hzero]
  cases conversion with
  | string => exact absurd rfl hconversion
  | _ => rfl

/-- How many zeros there are and how many there should be. Only if they are asked for without a
precision can more of them still make the same field. -/
theorem zeros_cases (spec : FieldSpec) (conversion : Conversion) :
    (zeros spec conversion = writtenZeros spec conversion ∧ ¬ ExtraZero spec conversion) ∨
    (zeros spec conversion < writtenZeros spec conversion ∧ spec.precision.isSome ∧
      ExtraZero spec conversion) ∨
    (zeros spec conversion = 1 ∧ writtenZeros spec conversion = 2 ∧ spec.precision = none ∧
      conversion = .octal ∧ (ExtraZero spec conversion ↔
        ¬ (spec.left = false ∧ spec.zero ∧ 2 ≤ spec.width.toNat))) := by
  unfold zeros writtenZeros ExtraZero precision leastDigits
  by_cases hoctal : conversion = .octal ∧ spec.alternate
  · simp only [if_pos hoctal]
    cases spec.precision with
    | none => simp [hoctal.1]
    | some precision =>
      have hzero : precision = 0 ↔ precision.toNat = 0 := UInt16.toNat_inj.symm
      have hone : precision = 1 ↔ precision.toNat = 1 := UInt16.toNat_inj.symm
      simp [hzero, hone]
      omega
  · simp only [if_neg hoctal]
    cases spec.precision with
    | none => simp
    | some precision =>
      have hzero : precision = 0 ↔ precision.toNat = 0 := UInt16.toNat_inj.symm
      simp [hzero]
      omega

/-- The zeros of a field that has one too many. -/
theorem writtenZeros_of_extraZero (h : ExtraZero spec conversion) :
    writtenZeros spec conversion = if conversion = .octal ∧ spec.alternate then 2 else 1 := by
  unfold ExtraZero at h
  unfold writtenZeros leastDigits
  split_ifs with hoctal
  · rw [if_pos hoctal] at h
    obtain h | h | h := h
    · simp [h]
    · simp [h]
    · simp [h.1]
  · rw [if_neg hoctal] at h
    simp [h]

/-- The field that asks for the zero that there is too much. -/
def asked (spec : FieldSpec) (conversion : Conversion) : FieldSpec :=
  { spec with precision := some (if conversion = .octal ∧ spec.alternate then 2 else 1) }

theorem zeros_asked (spec : FieldSpec) (conversion : Conversion) :
    zeros (asked spec conversion) conversion =
      if conversion = .octal ∧ spec.alternate then 2 else 1 := by
  unfold zeros precision asked
  by_cases hoctal : conversion = .octal ∧ spec.alternate
  · simp [hoctal]
  · simp [hoctal]

/-- Zeros from the width would not be seen in a field that has one too many. -/
theorem fill_of_extraZero (h : ExtraZero spec conversion) :
    let n : Numeral :=
      ⟨mark spec 0 conversion, List.replicate (writtenZeros spec conversion) '0'.toUInt8⟩
    fill spec.width.toNat spec.left (fillsWithZeros spec conversion) n =
      fill spec.width.toNat spec.left false n := by
  intro n
  rcases zeros_cases spec conversion with
    ⟨-, hnot⟩ | ⟨-, hprecision, -⟩ | ⟨-, htwo, -, rfl, hextra⟩
  · exact absurd h hnot
  · have hnone : spec.precision.isNone = false := by simpa using hprecision
    simp [fillsWithZeros, hnone]
  · rw [hextra] at h
    cases hleft : spec.left with
    | true => simp [fill]
    | false =>
      cases hzero : spec.zero with
      | false => simp [fillsWithZeros, hzero]
      | true =>
        have hnarrow : spec.width.toNat ≤ (n.mark ++ n.body).length := by
          simp only [hleft, hzero, true_and] at h
          simp only [n, List.length_append, List.length_replicate, htwo]
          omega
        rw [fill_of_le hnarrow, fill_of_le hnarrow]

/-- A field writes 0 as printf does, except where it writes a zero too many: there it writes what
printf would write if it were asked for that zero. -/
theorem write_zero_eq_printf_iff (hconversion : conversion ≠ .string)
    (hzero : operand.toNumber = 0) (hwide : ¬ TooWide spec conversion operand) :
    (spec.write conversion operand = .ok (text spec conversion operand) ↔
      ¬ ExtraZero spec conversion) ∧
    (ExtraZero spec conversion →
      spec.write conversion operand = .ok (text (asked spec conversion) conversion operand)) := by
  have hmark := not_mem_mark_zero spec conversion
  rw [write_zero hconversion hzero hwide, text_zero hconversion hzero,
    text_zero hconversion hzero, Except.ok.injEq, Except.ok.injEq]
  constructor
  · rcases zeros_cases spec conversion with
      ⟨heq, hnot⟩ | ⟨hlt, hprecision, hextra⟩ | ⟨hone, htwo, hprecision, rfl, hextra⟩
    · simp [heq, hnot]
    · rw [fill_zeros_eq_iff hmark hlt]
      have hnone : spec.precision.isNone = false := by simpa using hprecision
      simp [fillsWithZeros, hnone, hextra]
    · rw [hone, htwo, fill_zeros_eq_iff hmark (by decide), hextra, not_not]
      simp [fillsWithZeros, hprecision, mark]
  · intro hextra
    have hmark' : mark (asked spec conversion) 0 conversion = mark spec 0 conversion := by
      cases conversion <;> rfl
    have hfills : fillsWithZeros (asked spec conversion) conversion = false := by
      simp [fillsWithZeros, asked]
    rw [fill_of_extraZero hextra, writtenZeros_of_extraZero hextra, hmark', hfills, zeros_asked]
    rfl

theorem write_zero_widePadded :
    let spec : FieldSpec := { width := 5, alternate := true, zero := true }
    let bare : FieldSpec := { width := 3, precision := some 0, plus := true }
    ¬ TooWide spec .octal .zero ∧ ¬ TooWide bare .decimal .zero ∧
      spec.write .octal .zero = .ok (ofAscii "00000") ∧
      spec.write .octal .zero = .ok (text spec .octal .zero) ∧
      bare.write .decimal .zero = .ok (ofAscii " +0") ∧
      bare.write .decimal .zero ≠ .ok (text bare .decimal .zero) ∧
      bare.write .decimal .zero = .ok (text { bare with precision := some 1 } .decimal .zero) := by
  intro spec bare
  have hspec : ¬ TooWide spec .octal .zero := by decide
  have hbare : ¬ TooWide bare .decimal .zero := by decide
  have hextra : ExtraZero bare .decimal := by decide
  obtain ⟨hsame, -⟩ := write_zero_eq_printf_iff (by decide) rfl hspec
  obtain ⟨hother, hasked⟩ := write_zero_eq_printf_iff (by decide) rfl hbare
  exact ⟨hspec, hbare, by decide +kernel, hsame.2 (by decide), by decide +kernel,
    fun h => hother.1 h hextra, hasked hextra⟩

/-- Without digits asked for there should be no zero, and one in the alternate octal fields. -/
def extraZeros : Bytes := ofAscii "%\x7b0\x7d%.0d,%\x7b0\x7d%#o,%\x7b0\x7d%#.1o"

theorem Session.expand_extraZeros :
    Session.initial.expand extraZeros [] = .ok (ofAscii "0,00,00", .initial) ∧
      text { precision := some 0 } .decimal .zero ++ ofAscii "," ++
          text { alternate := true } .octal .zero ++ ofAscii "," ++
          text { alternate := true, precision := some 1 } .octal .zero = ofAscii ",0,0" := by
  constructor <;> decide +kernel

end Expansion
end TerminalCaps

import TerminalCaps.Expansion.Field
import TerminalCaps.Proofs.Bytes.Digits

/-!
Fields: when one cannot be written, and where the zeros of its padding go. The sign and the radix
mark of a number can be told from its text, so the digits begin where the text says.
-/
namespace TerminalCaps
namespace Bytes

theorem exists_digitChar {base n : Nat} (hbase : 1 < base) :
    ∀ c ∈ Nat.toDigits base n, ∃ d < base, c = d.digitChar := by
  induction n using Nat.strongRecOn with
  | ind n ih =>
    rw [Nat.toDigits_eq_if hbase]
    intro c hc
    split at hc
    · next hlt => exact ⟨n, hlt, List.mem_singleton.1 hc⟩
    · next hge =>
      rcases List.mem_append.1 hc with hc | hc
      · exact ih (n / base) (Nat.div_lt_self (by omega) hbase) c hc
      · exact ⟨n % base, Nat.mod_lt n (by omega), List.mem_singleton.1 hc⟩

/-- The bytes of a sign or a radix mark. -/
def isMark (b : UInt8) : Bool :=
  ['+', '-', ' ', 'x', 'X'].any fun c => b = c.toUInt8

theorem not_isMark_of_mem_digits {base : Nat} (n : Nat) (hbase : 1 < base) (hhex : base ≤ 16) :
    ∀ b ∈ digits base n, ¬ isMark b := by
  have hall : ∀ d : Fin 16, ¬ isMark d.val.digitChar.toUInt8 := by decide
  intro b hb
  rcases List.mem_map.1 hb with ⟨c, hc, rfl⟩
  rcases exists_digitChar hbase c hc with ⟨d, hd, rfl⟩
  exact hall ⟨d, by omega⟩

theorem not_isMark_of_mem_capitalHexDigits (n : Nat) :
    ∀ b ∈ capitalHexDigits n, ¬ isMark b := by
  have hall : ∀ d : Fin 16, ¬ isMark d.val.digitChar.toUpper.toUInt8 := by decide
  intro b hb
  rcases List.mem_map.1 hb with ⟨c, hc, rfl⟩
  rcases exists_digitChar (by decide) c hc with ⟨d, hd, rfl⟩
  exact hall ⟨d, hd⟩

theorem not_isMark_of_mem_zeroExtend (least : Nat) {digits : Bytes}
    (h : ∀ b ∈ digits, ¬ isMark b) : ∀ b ∈ zeroExtend least digits, ¬ isMark b := by
  have hzero : ¬ isMark '0'.toUInt8 := by decide
  intro b hb
  rcases List.mem_append.1 hb with hb | hb
  · rw [List.eq_of_mem_replicate hb]
    exact hzero
  · exact h b hb

end Bytes

namespace Expansion
open Bytes Template

namespace Numeral

def signLength : Bytes → Nat
  | [] => 0
  | b :: _ => if b = '+'.toUInt8 ∨ b = '-'.toUInt8 ∨ b = ' '.toUInt8 then 1 else 0

def radixLength : Bytes → Nat
  | zero :: letter :: _ =>
    if zero = '0'.toUInt8 ∧ (letter = 'x'.toUInt8 ∨ letter = 'X'.toUInt8) then 2 else 0
  | _ => 0

/-- Where the digits begin in the text of a number: after a sign, and after a radix mark. -/
def digitsStart (text : Bytes) : Nat :=
  signLength text + radixLength (text.drop (signLength text))

/-- The text of a number, split where its digits begin. -/
def ofText (text : Bytes) : Numeral := ⟨text.take (digitsStart text), text.drop (digitsStart text)⟩

theorem signLength_le (text : Bytes) : signLength text ≤ text.length := by
  unfold signLength
  split
  · exact Nat.le_refl _
  · rw [List.length_cons]
    split <;> omega

theorem radixLength_le (text : Bytes) : radixLength text ≤ text.length := by
  unfold radixLength
  split
  · rw [List.length_cons, List.length_cons]
    split <;> omega
  · exact Nat.zero_le _

theorem digitsStart_le (text : Bytes) : digitsStart text ≤ text.length := by
  have hsign := signLength_le text
  have hradix := radixLength_le (text.drop (signLength text))
  rw [List.length_drop] at hradix
  unfold digitsStart
  omega

theorem length_pad (n : Numeral) (width : Nat) (left zeros : Bool) :
    (n.pad width left zeros).length = max width (n.mark ++ n.body).length := by
  unfold pad
  dsimp only
  split
  · simp only [List.length_append, List.length_replicate]
    omega
  · split <;> simp only [List.length_append, List.length_replicate] <;> omega

section Split

variable {body : Bytes}

theorem signLength_of_not_isMark (h : ∀ b ∈ body, ¬ isMark b) : signLength body = 0 := by
  cases body with
  | nil => rfl
  | cons b body =>
    rw [signLength, if_neg]
    rintro (rfl | rfl | rfl) <;> exact h _ List.mem_cons_self (by decide)

theorem radixLength_of_not_isMark (h : ∀ b ∈ body, ¬ isMark b) : radixLength body = 0 := by
  unfold radixLength
  split
  · next zero letter rest =>
    have hletter := h letter (List.mem_cons_of_mem _ List.mem_cons_self)
    rw [if_neg]
    rintro ⟨-, rfl | rfl⟩ <;> exact hletter (by decide)
  · rfl

theorem digitsStart_body (h : ∀ b ∈ body, ¬ isMark b) : digitsStart body = 0 := by
  rw [digitsStart, signLength_of_not_isMark h, List.drop_zero, radixLength_of_not_isMark h]

theorem digitsStart_sign {sign : UInt8}
    (hsign : sign = '+'.toUInt8 ∨ sign = '-'.toUInt8 ∨ sign = ' '.toUInt8)
    (h : ∀ b ∈ body, ¬ isMark b) : digitsStart (sign :: body) = 1 := by
  rw [digitsStart, signLength, if_pos hsign, List.drop_one, List.tail_cons,
    radixLength_of_not_isMark h]

theorem digitsStart_radix {letter : UInt8}
    (hletter : letter = 'x'.toUInt8 ∨ letter = 'X'.toUInt8) :
    digitsStart ('0'.toUInt8 :: letter :: body) = 2 := by
  rw [digitsStart, signLength, if_neg (by decide), List.drop_zero, radixLength,
    if_pos ⟨rfl, hletter⟩]

theorem ofText_append {n : Numeral} (h : digitsStart (n.mark ++ n.body) = n.mark.length) :
    ofText (n.mark ++ n.body) = n := by
  rw [ofText, h, List.take_left, List.drop_left]

end Split

end Numeral

/-- What a conversion other than `%s` writes before it is padded. -/
def numeral? (spec : FieldSpec) (value : Int32) : Conversion → Option Numeral
  | .decimal => some (decimalNumeral spec value)
  | .octal => some (octalNumeral spec value)
  | .hex => some (hexNumeral spec false value)
  | .capitalHex => some (hexNumeral spec true value)
  | .string => none

open Numeral

theorem ofText_decimalNumeral (spec : FieldSpec) (value : Int32) :
    let n := decimalNumeral spec value
    ofText (n.mark ++ n.body) = n := by
  have hdigits : ∀ b ∈ digits 10 value.toInt.natAbs, ¬ isMark b :=
    not_isMark_of_mem_digits _ (by decide) (by decide)
  have hbody := not_isMark_of_mem_zeroExtend (leastDigits spec) hdigits
  apply ofText_append
  unfold decimalNumeral signMark
  dsimp only
  split
  · exact digitsStart_sign (by decide) hbody
  · split
    · exact digitsStart_sign (by decide) hbody
    · split
      · exact digitsStart_sign (by decide) hbody
      · exact digitsStart_body hbody

theorem ofText_octalNumeral (spec : FieldSpec) (value : Int32) :
    let n := octalNumeral spec value
    ofText (n.mark ++ n.body) = n := by
  have hdigits : ∀ b ∈ digits 8 value.toUInt32.toNat, ¬ isMark b :=
    not_isMark_of_mem_digits _ (by decide) (by decide)
  have hbody := fun least => not_isMark_of_mem_zeroExtend least hdigits
  apply ofText_append
  unfold octalNumeral
  dsimp only
  split
  · have hzero : ∀ b ∈ '0'.toUInt8 :: zeroExtend (leastDigits spec - 1)
        (digits 8 value.toUInt32.toNat), ¬ isMark b :=
      List.forall_mem_cons.2 ⟨by decide, hbody _⟩
    exact digitsStart_body hzero
  · exact digitsStart_body (hbody _)

theorem ofText_hexNumeral (spec : FieldSpec) (capital : Bool) (value : Int32) :
    let n := hexNumeral spec capital value
    ofText (n.mark ++ n.body) = n := by
  apply ofText_append
  unfold hexNumeral
  dsimp only
  split
  · cases capital <;> exact digitsStart_radix (by decide)
  · apply digitsStart_body
    apply not_isMark_of_mem_zeroExtend
    cases capital with
    | false => exact not_isMark_of_mem_digits _ (by decide) (by decide)
    | true => exact not_isMark_of_mem_capitalHexDigits _

/-- The text of a number shows where its digits begin. -/
theorem ofText_of_numeral? {spec : FieldSpec} {value : Int32} {conversion : Conversion}
    {n : Numeral} (h : numeral? spec value conversion = some n) :
    ofText (n.mark ++ n.body) = n := by
  cases conversion with
  | decimal =>
    cases h
    exact ofText_decimalNumeral spec value
  | octal =>
    cases h
    exact ofText_octalNumeral spec value
  | hex =>
    cases h
    exact ofText_hexNumeral spec false value
  | capitalHex =>
    cases h
    exact ofText_hexNumeral spec true value
  | string => cases h

/-- The greatest precision, in the decimal form of a number with a sign, is one digit too many. -/
theorem maxSignedLength_lt_iff {spec : FieldSpec} {value : Int32} :
    maxSignedLength < signedLength spec value ↔
      spec.precision = some 65535 ∧ (value < 0 ∨ spec.plus) := by
  unfold signedLength maxSignedLength
  cases spec.precision with
  | none => simp
  | some precision =>
    have hlt := UInt16.toNat_lt precision
    have hmax : precision = 65535 ↔ precision.toNat = 65535 := UInt16.toNat_inj.symm
    simp only [Option.some.injEq, hmax]
    split
    · next h =>
      simp only [h, and_true]
      omega
    · next h =>
      simp only [h, and_false, iff_false]
      omega

theorem write_eq_error_iff {spec : FieldSpec} {conversion : Conversion} {operand : Operand}
    {error : ExpansionError} : spec.write conversion operand = .error error ↔
      conversion = .decimal ∧ spec.precision = some 65535 ∧
        (operand.toNumber < 0 ∨ spec.plus) := by
  cases error
  rw [← maxSignedLength_lt_iff]
  cases conversion with
  | decimal =>
    rw [FieldSpec.write]
    dsimp only
    split
    · next h => simp [h]
    · next h => simp [h]
  | _ => simp [FieldSpec.write]

/-- A number is padded with its digits split off where its text says. -/
theorem write_eq_pad_ofText {spec : FieldSpec} {conversion : Conversion} {operand : Operand}
    {n : Numeral} {text : Bytes} (hn : numeral? spec operand.toNumber conversion = some n)
    (h : spec.write conversion operand = .ok text) :
    text = (ofText (n.mark ++ n.body)).pad spec.width.toNat spec.left
      (spec.zero && spec.precision.isNone) := by
  rw [ofText_of_numeral? hn]
  cases conversion with
  | decimal =>
    cases hn
    rw [FieldSpec.write] at h
    dsimp only at h
    split at h
    · cases h
    · exact (Except.ok.inj h).symm
  | octal | hex | capitalHex =>
    cases hn
    exact (Except.ok.inj h).symm
  | string => cases hn

end Expansion
end TerminalCaps

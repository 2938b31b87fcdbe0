import Mathlib.Data.Nat.Digits.Lemmas
import TerminalCaps.Proofs.Expansion.Fields

/-!
What printf writes, said without the writing of fields: digits by division, zeros up to the
precision, a sign or a radix mark, and padding. A field writes the same for every text and for every
number other than 0.
-/
namespace TerminalCaps
open Bytes Template Expansion

namespace Printf

def smallLetters : Bytes := ofAscii "0123456789abcdef"

def capitalLetters : Bytes := ofAscii "0123456789ABCDEF"

/-- The digits of a number, the first one not a zero. The number 0 has none. -/
def significant (letters : Bytes) (base n : Nat) : Bytes :=
  (Nat.digits base n).reverse.map fun d => letters.getD d 0

/-- A decimal number is written by its absolute value and its sign, any other one modulo `2 ^ 32`. -/
def digits (value : Int32) : Conversion → Bytes
  | .octal => significant smallLetters 8 (value.toInt % 4294967296).toNat
  | .hex => significant smallLetters 16 (value.toInt % 4294967296).toNat
  | .capitalHex => significant capitalLetters 16 (value.toInt % 4294967296).toNat
  | _ => significant smallLetters 10 value.toInt.natAbs

/-- The least number of digits. -/
def precision (spec : FieldSpec) : Nat := (spec.precision.map UInt16.toNat).getD 1

/-- The digits with zeros up to the precision. In the alternate form of an octal number the first
digit is a zero. -/
def body (spec : FieldSpec) (conversion : Conversion) (value : Int32) : Bytes :=
  let extended := (digits value conversion).leftpad (precision spec) '0'.toUInt8
  if conversion = .octal ∧ spec.alternate ∧ extended.head? ≠ some '0'.toUInt8 then
    '0'.toUInt8 :: extended
  else extended

/-- The sign of a decimal number, and the radix mark in the alternate form of a hexadecimal one. -/
def mark (spec : FieldSpec) (value : Int32) : Conversion → Bytes
  | .decimal =>
    if value.toInt < 0 then ofAscii "-"
    else if spec.plus then ofAscii "+"
    else if spec.space then ofAscii " "
    else []
  | .hex => if spec.alternate ∧ value.toInt ≠ 0 then ofAscii "0x" else []
  | .capitalHex => if spec.alternate ∧ value.toInt ≠ 0 then ofAscii "0X" else []
  | _ => []

/-- What is written before it is filled up to the width. -/
def unfilled (spec : FieldSpec) (operand : Operand) : Conversion → Numeral
  | .string =>
    match spec.precision with
    | none => ⟨[], operand.toText⟩
    | some precision => ⟨[], operand.toText.take precision.toNat⟩
  | conversion => ⟨mark spec operand.toNumber conversion, body spec conversion operand.toNumber⟩

/-- Filled up to the width with spaces at the right, with zeros after the mark, or with spaces at the
left. -/
def fill (width : Nat) (left zeros : Bool) (n : Numeral) : Bytes :=
  if left then (n.mark ++ n.body).rightpad width ' '.toUInt8
  else if zeros then n.mark ++ n.body.leftpad (width - n.mark.length) '0'.toUInt8
  else (n.mark ++ n.body).leftpad width ' '.toUInt8

/-- A text is never filled with zeros, and a number only if it has no precision. -/
def fillsWithZeros (spec : FieldSpec) (conversion : Conversion) : Bool :=
  spec.zero && spec.precision.isNone && conversion != .string

def text (spec : FieldSpec) (conversion : Conversion) (operand : Operand) : Bytes :=
  fill spec.width.toNat spec.left (fillsWithZeros spec conversion) (unfilled spec operand conversion)

section Digits

variable {base n : Nat} {letters : Bytes}

theorem toDigits_eq_digits (hbase : 1 < base) (hn : 0 < n) :
    Nat.toDigits base n = (Nat.digits base n).reverse.map Nat.digitChar := by
  induction n using Nat.strongRecOn with
  | ind n ih =>
    rw [Nat.toDigits_eq_if hbase, Nat.digits_def' hbase hn]
    split
    · next hlt => simp [Nat.div_eq_of_lt hlt, Nat.mod_eq_of_lt hlt]
    · next hge =>
      have hdiv : 0 < n / base := Nat.div_pos (by omega) (by omega)
      rw [ih (n / base) (Nat.div_lt_self hn hbase) hdiv]
      simp

/-- Characters that stand for the same digits as the letters write the same numbers. -/
theorem map_toDigits {f : Char → UInt8} (hbase : 1 < base) (hhex : base ≤ 16) (hn : 0 < n)
    (hf : ∀ d : Fin 16, f d.val.digitChar = letters.getD d.val 0) :
    (Nat.toDigits base n).map f = significant letters base n := by
  rw [toDigits_eq_digits hbase hn, significant, List.map_map]
  apply List.map_congr_left
  intro d hd
  have hlt : d < base := Nat.digits_lt_base hbase (List.mem_reverse.1 hd)
  exact hf ⟨d, by omega⟩

theorem digits_eq_significant (hbase : 1 < base) (hhex : base ≤ 16) (hn : 0 < n) :
    Bytes.digits base n = significant smallLetters base n :=
  map_toDigits hbase hhex hn (by decide)

theorem capitalHexDigits_eq_significant (hn : 0 < n) :
    capitalHexDigits n = significant capitalLetters 16 n :=
  map_toDigits (by decide) (by decide) hn (by decide)

theorem length_significant_pos (letters : Bytes) (base : Nat) (hn : 0 < n) :
    0 < (significant letters base n).length := by
  have hne : Nat.digits base n ≠ [] := Nat.digits_ne_nil_iff_ne_zero.2 (by omega)
  simpa [significant] using List.length_pos_iff_ne_nil.2 hne

/-- The first digit of a number other than 0 is not a zero. -/
theorem head?_significant_ne (hbase : 1 < base) (hhex : base ≤ 16) (hn : 0 < n) :
    (significant smallLetters base n).head? ≠ some '0'.toUInt8 := by
  have hletters : ∀ d : Fin 16, smallLetters.getD d.val 0 = '0'.toUInt8 → d.val = 0 := by decide
  have hne : Nat.digits base n ≠ [] := Nat.digits_ne_nil_iff_ne_zero.2 (by omega)
  have hlast : (Nat.digits base n).getLast hne ≠ 0 := Nat.getLast_digit_ne_zero base (by omega)
  have hlt : (Nat.digits base n).getLast hne < base :=
    Nat.digits_lt_base hbase (List.getLast_mem hne)
  intro hhead
  simp only [significant, List.head?_map, List.head?_reverse, List.getLast?_eq_some_getLast hne,
    Option.map_some, Option.some.injEq] at hhead
  exact hlast (hletters ⟨_, by omega⟩ hhead)

theorem zeroExtend_eq_leftpad (least : Nat) (digits : Bytes) :
    zeroExtend least digits = digits.leftpad least '0'.toUInt8 := rfl

/-- Where there is a digit, a precision of 1 asks for nothing. -/
theorem leftpad_precision (spec : FieldSpec) {digits : Bytes} (h : 0 < digits.length) :
    digits.leftpad (precision spec) '0'.toUInt8 = zeroExtend (leastDigits spec) digits := by
  rw [zeroExtend_eq_leftpad, precision, leastDigits]
  cases spec.precision with
  | none =>
    have hone : 1 - digits.length = 0 := by omega
    simp [List.leftpad, hone]
  | some precision => rfl

/-- A zero in front counts as one of the digits asked for. -/
theorem leftpad_alternate (least : Nat) {digits : Bytes}
    (hhead : digits.head? ≠ some '0'.toUInt8) :
    (if (digits.leftpad least '0'.toUInt8).head? ≠ some '0'.toUInt8 then
      '0'.toUInt8 :: digits.leftpad least '0'.toUInt8
    else digits.leftpad least '0'.toUInt8) = '0'.toUInt8 :: zeroExtend (least - 1) digits := by
  rw [zeroExtend_eq_leftpad]
  rcases Nat.lt_or_ge digits.length least with hlt | hge
  · obtain ⟨missing, hmissing⟩ : ∃ missing, least - digits.length = missing + 1 :=
      ⟨least - digits.length - 1, by omega⟩
    have hrest : least - 1 - digits.length = missing := by omega
    simp [List.leftpad, hmissing, hrest, List.replicate_succ]
  · have hnone : least - digits.length = 0 := by omega
    have hrest : least - 1 - digits.length = 0 := by omega
    simp [List.leftpad, hnone, hrest, hhead]

end Digits

section Numbers

variable {spec : FieldSpec} {value : Int32}

theorem toNat_toUInt32 (value : Int32) :
    value.toUInt32.toNat = (value.toInt % 4294967296).toNat := by
  have hcond := BitVec.toInt_eq_toNat_cond value.toBitVec
  have hlt := value.toBitVec.isLt
  show value.toBitVec.toNat = (value.toBitVec.toInt % 4294967296).toNat
  rw [hcond]
  split <;> omega

theorem toInt_eq_zero_iff : value.toInt = 0 ↔ value = 0 := by
  rw [← Int32.toInt_inj]
  rfl

theorem toNat_emod_pos (h : value ≠ 0) : 0 < (value.toInt % 4294967296).toNat := by
  have hne : value.toInt ≠ 0 := mt toInt_eq_zero_iff.1 h
  have hlow := Int32.le_toInt value
  have hhigh := Int32.toInt_lt value
  omega

theorem toInt_lt_zero_iff : value.toInt < 0 ↔ value < 0 := by
  rw [Int32.lt_iff_toInt_lt]
  rfl

theorem mark_decimal (spec : FieldSpec) (value : Int32) :
    mark spec value .decimal = signMark spec value := by
  simp only [mark, signMark, toInt_lt_zero_iff]
  rfl

theorem digits_of_ne_zero (h : value ≠ 0) :
    Bytes.digits 10 value.toInt.natAbs = digits value .decimal ∧
    Bytes.digits 8 value.toUInt32.toNat = digits value .octal ∧
    Bytes.digits 16 value.toUInt32.toNat = digits value .hex ∧
    capitalHexDigits value.toUInt32.toNat = digits value .capitalHex := by
  have habs : 0 < value.toInt.natAbs := Int.natAbs_pos.2 (mt toInt_eq_zero_iff.1 h)
  have hpos := toNat_emod_pos h
  rw [toNat_toUInt32]
  exact ⟨digits_eq_significant (by decide) (by decide) habs,
    digits_eq_significant (by decide) (by decide) hpos,
    digits_eq_significant (by decide) (by decide) hpos, capitalHexDigits_eq_significant hpos⟩

theorem length_digits_pos (h : value ≠ 0) (conversion : Conversion) :
    0 < (digits value conversion).length := by
  have habs : 0 < value.toInt.natAbs := Int.natAbs_pos.2 (mt toInt_eq_zero_iff.1 h)
  cases conversion with
  | decimal | string => exact length_significant_pos _ _ habs
  | octal | hex | capitalHex => exact length_significant_pos _ _ (toNat_emod_pos h)

/-- Except for the zero of an alternate octal number, a precision only asks for zeros. -/
theorem body_of_ne_zero (h : value ≠ 0) {conversion : Conversion}
    (hoctal : ¬ (conversion = .octal ∧ spec.alternate)) :
    body spec conversion value = zeroExtend (leastDigits spec) (digits value conversion) := by
  unfold body
  rw [leftpad_precision spec (length_digits_pos h conversion)]
  exact if_neg fun hzero => hoctal ⟨hzero.1, hzero.2.1⟩

theorem body_octal_of_ne_zero (h : value ≠ 0) (halternate : spec.alternate) :
    body spec .octal value = '0'.toUInt8 :: zeroExtend (leastDigits spec - 1) (digits value .octal) := by
  have hhead : (digits value .octal).head? ≠ some '0'.toUInt8 :=
    head?_significant_ne (by decide) (by decide) (toNat_emod_pos h)
  have hleast : precision spec - 1 = leastDigits spec - 1 := by
    rw [precision, leastDigits]
    cases spec.precision <;> rfl
  rw [← hleast, ← leftpad_alternate (precision spec) hhead]
  simp [body, halternate]

/-- A number other than 0 is written in the two parts that printf writes it in. -/
theorem numeral?_of_ne_zero (h : value ≠ 0) {conversion : Conversion}
    (hconversion : conversion ≠ .string) : numeral? spec value conversion =
      some ⟨mark spec value conversion, body spec conversion value⟩ := by
  obtain ⟨hdecimal, hoctal, hhex, hcapital⟩ := digits_of_ne_zero h
  have hne : value.toInt ≠ 0 := mt toInt_eq_zero_iff.1 h
  cases conversion with
  | decimal =>
    rw [numeral?, decimalNumeral, hdecimal, mark_decimal, body_of_ne_zero h (by simp)]
  | octal =>
    rw [numeral?, octalNumeral, hoctal]
    by_cases halternate : spec.alternate
    · simp [halternate, mark, body_octal_of_ne_zero h halternate]
    · have hbody := body_of_ne_zero h fun hzero : Conversion.octal = .octal ∧ spec.alternate =>
        halternate hzero.2
      simp [halternate, mark, hbody]
  | hex =>
    rw [numeral?, hexNumeral, body_of_ne_zero h (by simp)]
    simp [hhex, mark, h, hne]
    rfl
  | capitalHex =>
    rw [numeral?, hexNumeral, body_of_ne_zero h (by simp)]
    simp [hcapital, mark, h, hne]
    rfl
  | string => exact absurd rfl hconversion

end Numbers

section Filling

theorem pad_eq_fill (n : Numeral) (width : Nat) (left zeros : Bool) :
    n.pad width left zeros = fill width left zeros n := by
  unfold Numeral.pad fill
  cases left with
  | true => simp [List.rightpad]
  | false =>
    cases zeros with
    | true => simp [List.leftpad, Nat.sub_add_eq]
    | false => simp [List.leftpad]

theorem length_fill (n : Numeral) (width : Nat) (left zeros : Bool) :
    (fill width left zeros n).length = max width (n.mark ++ n.body).length := by
  rw [← pad_eq_fill, Numeral.length_pad]

end Filling

end Printf

namespace Expansion

/-- The fields that cannot be written: a signed decimal number of the greatest precision. -/
def TooWide (spec : FieldSpec) (conversion : Conversion) (operand : Operand) : Prop :=
  conversion = .decimal ∧ spec.precision = some 65535 ∧ (operand.toNumber < 0 ∨ spec.plus)

instance (spec : FieldSpec) (conversion : Conversion) (operand : Operand) :
    Decidable (TooWide spec conversion operand) :=
  inferInstanceAs (Decidable (_ ∧ _))

variable {spec : FieldSpec} {conversion : Conversion} {operand : Operand}

theorem write_of_numeral? (hwide : ¬ TooWide spec conversion operand) {n : Numeral}
    (hn : numeral? spec operand.toNumber conversion = some n) : spec.write conversion operand =
      .ok (Printf.fill spec.width.toNat spec.left (Printf.fillsWithZeros spec conversion) n) := by
  have hzeros : Printf.fillsWithZeros spec conversion = (spec.zero && spec.precision.isNone) := by
    cases conversion with
    | string => simp [numeral?] at hn
    | _ => simp [Printf.fillsWithZeros]
  cases hwrite : spec.write conversion operand with
  | error e => exact absurd (write_eq_error_iff.1 hwrite) hwide
  | ok text =>
    rw [write_eq_pad_ofText hn hwrite, ofText_of_numeral? hn, Printf.pad_eq_fill, hzeros]

theorem write_string (spec : FieldSpec) (operand : Operand) :
    spec.write .string operand = .ok (Printf.text spec .string operand) := by
  have hzeros : Printf.fillsWithZeros spec .string = false := by simp [Printf.fillsWithZeros]
  rw [FieldSpec.write, Printf.text, hzeros, ← Printf.pad_eq_fill, Printf.unfilled]
  cases spec.precision <;> rfl

/-- A field writes what printf writes, for every text and every number other than 0. It is as long
as the width asks for, or as what is written without being filled. -/
theorem write_eq_printf (hwide : ¬ TooWide spec conversion operand)
    (hzero : conversion = .string ∨ operand.toNumber ≠ 0) :
    spec.write conversion operand = .ok (Printf.text spec conversion operand) ∧
      (Printf.text spec conversion operand).length = max spec.width.toNat
        ((Printf.unfilled spec operand conversion).mark ++
          (Printf.unfilled spec operand conversion).body).length := by
  refine ⟨?_, Printf.length_fill _ _ _ _⟩
  by_cases hstring : conversion = .string
  · rw [hstring]
    exact write_string spec operand
  · have hnumber := hzero.resolve_left hstring
    rw [write_of_numeral? hwide (Printf.numeral?_of_ne_zero hnumber hstring), Printf.text]
    cases conversion with
    | string => exact absurd rfl hstring
    | _ => rfl

theorem write_eq_printf_allFlags :
    let spec : FieldSpec := ⟨10, some 5, true, true, true, true, true⟩
    ¬ TooWide spec .hex (.number 63) ∧ (Operand.number 63).toNumber ≠ 0 ∧
      spec.write .hex (.number 63) = .ok (ofAscii "0x0003f   ") := by
  intro spec
  have hwide : ¬ TooWide spec .hex (.number 63) := by decide
  have hzero : (Operand.number 63).toNumber ≠ 0 := by decide
  refine ⟨hwide, hzero, ?_⟩
  rw [(write_eq_printf hwide (.inr hzero)).1]
  decide +kernel

end Expansion
end TerminalCaps

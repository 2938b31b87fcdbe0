import TerminalCaps.Expansion.Operand

/-! The text of an operand in a field: digits, sign and radix mark, and padding to a width. -/
namespace TerminalCaps
namespace Expansion

open Template (Conversion FieldSpec)

/-- Why an expansion has no result. -/
inductive ExpansionError where
  /-- A signed number was to have more characters than a field can. -/
  | numberTooWide
  deriving DecidableEq, Repr

/-- A text to be padded: zeros go between its mark and its body. -/
structure Numeral where
  mark : Bytes
  body : Bytes
  deriving DecidableEq, Repr

namespace Numeral

/-- The numeral in a field of some width, filled with spaces on the right, zeros after the mark, or
spaces on the left. -/
def pad (n : Numeral) (width : Nat) (left zeros : Bool) : Bytes :=
  let missing := width - (n.mark ++ n.body).length
  if left then n.mark ++ n.body ++ List.replicate missing ' '.toUInt8
  else if zeros then n.mark ++ List.replicate missing '0'.toUInt8 ++ n.body
  else List.replicate missing ' '.toUInt8 ++ n.mark ++ n.body

end Numeral

/-- The least number of digits that a field asks for. -/
def leastDigits (spec : FieldSpec) : Nat := (spec.precision.map UInt16.toNat).getD 0

/-- The sign of a number: always written before a negative one, before another if asked for. -/
def signMark (spec : FieldSpec) (value : Int32) : Bytes :=
  if value < 0 then ['-'.toUInt8]
  else if spec.plus then ['+'.toUInt8]
  else if spec.space then [' '.toUInt8]
  else []

/-- A number in decimal, with its sign. -/
def decimalNumeral (spec : FieldSpec) (value : Int32) : Numeral :=
  ⟨signMark spec value,
    Bytes.zeroExtend (leastDigits spec) (Bytes.digits 10 value.toInt.natAbs)⟩

/-- A number in octal without a sign. In the alternate form a zero comes first, and counts as one of
the digits asked for. -/
def octalNumeral (spec : FieldSpec) (value : Int32) : Numeral :=
  let digits := Bytes.digits 8 value.toUInt32.toNat
  if spec.alternate then
    ⟨[], '0'.toUInt8 :: Bytes.zeroExtend (leastDigits spec - 1) digits⟩
  else ⟨[], Bytes.zeroExtend (leastDigits spec) digits⟩

/-- A number in base 16 without a sign. In the alternate form a number other than 0 is marked. -/
def hexNumeral (spec : FieldSpec) (capital : Bool) (value : Int32) : Numeral :=
  let n := value.toUInt32.toNat
  let digits := if capital then Bytes.capitalHexDigits n else Bytes.digits 16 n
  let letter := if capital then 'X' else 'x'
  let mark := if spec.alternate ∧ value ≠ 0 then ['0'.toUInt8, letter.toUInt8] else []
  ⟨mark, Bytes.zeroExtend (leastDigits spec) digits⟩

/-- The most characters that the digits and the sign of a number can be asked to have. -/
def maxSignedLength : Nat := 65535

/-- The characters asked for in a decimal number. One that is negative, or written with a plus sign,
has one more for the sign. -/
def signedLength (spec : FieldSpec) (value : Int32) : Nat :=
  match spec.precision with
  | none => 0
  | some precision =>
    if value < 0 ∨ spec.plus then precision.toNat + 1 else precision.toNat

end Expansion

namespace Template
open Expansion

/-- The text of an operand in a field. A string is cut to the precision and padded with spaces; a
number is padded with zeros if that is asked for and its digits are not. -/
def FieldSpec.write (spec : FieldSpec) (conversion : Conversion) (value : Operand) :
    Except ExpansionError Bytes :=
  let padded (numeral : Numeral) :=
    numeral.pad spec.width.toNat spec.left (spec.zero && spec.precision.isNone)
  match conversion with
  | .decimal =>
    if maxSignedLength < signedLength spec value.toNumber then .error .numberTooWide
    else .ok (padded (decimalNumeral spec value.toNumber))
  | .octal => .ok (padded (octalNumeral spec value.toNumber))
  | .hex => .ok (padded (hexNumeral spec false value.toNumber))
  | .capitalHex => .ok (padded (hexNumeral spec true value.toNumber))
  | .string =>
    let text := match spec.precision with
      | none => value.toText
      | some precision => value.toText.take precision.toNat
    .ok (Numeral.pad ⟨[], text⟩ spec.width.toNat spec.left false)

end Template
end TerminalCaps

import TerminalCaps.Bytes.Digits
import TerminalCaps.Template.Instruction

/-! Operands of an expansion, and the arithmetic on them. -/
namespace TerminalCaps
namespace Expansion

/-- A value given to an expansion. -/
inductive Parameter where
  | number (value : Int32)
  | string (text : Bytes)
  deriving DecidableEq, Repr

/-- A value on the stack or in a variable. A character is a number or a string of one byte, as its
use asks. -/
inductive Operand where
  | number (value : Int32)
  | character (code : UInt8)
  | string (text : Bytes)
  deriving DecidableEq, Repr

namespace Operand

/-- The value of every variable and parameter that has not been set. -/
def zero : Operand := number 0

def ofParameter : Parameter → Operand
  | .number value => number value
  | .string text => string text

/-- The operand as a number; of a text, the number at its start. -/
def toNumber : Operand → Int32
  | number value => value
  | character code => Int32.ofNat code.toNat
  | string text => Bytes.leadingInteger text

/-- The operand as a text; a number is written in decimal. -/
def toText : Operand → Bytes
  | number value => Bytes.decimal value.toInt
  | character code => [code]
  | string text => text

/-- The bytes an operand stands for as a character: the low byte of a number, but 128 for 0. -/
def toCharacter : Operand → Bytes
  | number value => if value = 0 then [128] else [UInt8.ofInt value.toInt]
  | character code => [code]
  | string text => text

end Operand

/-- Truth as a number. -/
def truth (p : Prop) [Decidable p] : Int32 := if p then 1 else 0

/-- A quotient or remainder that has no value in 32 bits, by zero or of the least number by -1. -/
def NoQuotient (x y : Int32) : Prop := y = 0 ∨ (x = Int32.minValue ∧ y = -1)

instance (x y : Int32) : Decidable (NoQuotient x y) := inferInstanceAs (Decidable (_ ∨ _))

end Expansion

namespace Template
open Expansion

/-- The value of an operation, `x` being the operand pushed first. Sums and products wrap around in
32 bits, quotients go towards zero, and a quotient or remainder without a value is 0. -/
def BinaryOp.apply (x y : Int32) : BinaryOp → Int32
  | .add => x + y
  | .subtract => x - y
  | .multiply => x * y
  | .divide => if NoQuotient x y then 0 else x / y
  | .remainder => if NoQuotient x y then 0 else x % y
  | .bitAnd => x &&& y
  | .bitOr => x ||| y
  | .bitXor => x ^^^ y
  | .equal => truth (x = y)
  | .less => truth (x < y)
  | .greater => truth (y < x)
  | .and => truth (x ≠ 0 ∧ y ≠ 0)
  | .or => truth (x ≠ 0 ∨ y ≠ 0)

def UnaryOp.apply (x : Int32) : UnaryOp → Int32
  | .not => truth (x = 0)
  | .complement => ~~~x

end Template
end TerminalCaps

import TerminalCaps.Bytes

/-! What a parameterized string asks of the machine that expands it: operations and jumps. -/
namespace TerminalCaps.Template

/-- How an operand is written: `%d`, `%o`, `%x`, `%X` or `%s`. -/
inductive Conversion where
  | decimal | octal | hex | capitalHex | string
  deriving DecidableEq, Repr

/-- The layout of a written operand, as between `%` and the conversion in `%:-+# 05.3d`. -/
structure FieldSpec where
  width : UInt16 := 0
  precision : Option UInt16 := none
  alternate : Bool := false
  left : Bool := false
  plus : Bool := false
  space : Bool := false
  zero : Bool := false
  deriving DecidableEq, Repr

/-- A variable: `A` to `Z` last as long as the session, `a` to `z` as long as one expansion. -/
inductive Variable where
  | static (letter : Fin 26)
  | dynamic (letter : Fin 26)
  deriving DecidableEq, Repr

inductive BinaryOp where
  | add | subtract | multiply | divide | remainder
  | bitAnd | bitOr | bitXor
  | equal | less | greater
  | and | or
  deriving DecidableEq, Repr

inductive UnaryOp where
  | not | complement
  deriving DecidableEq, Repr

/-- A step that goes on to the next one. -/
inductive Operation where
  /-- Sends the bytes as they are. -/
  | literal (text : Bytes)
  /-- Sends a percent sign. -/
  | percent
  /-- Adds one to the first two parameters. -/
  | increment
  /-- Sends an operand as a character. -/
  | character
  /-- Sends the text of an operand. -/
  | field (conversion : Conversion) (spec : FieldSpec)
  | pushParameter (index : Fin 9)
  | pushNumber (value : Int32)
  | pushCharacter (code : UInt8)
  | store (target : Variable)
  | load (source : Variable)
  /-- Replaces an operand by the length of its text. -/
  | length
  | binary (op : BinaryOp)
  | unary (op : UnaryOp)
  deriving DecidableEq, Repr

/-- An operation, or a part of a conditional. A jump without a target ends the run. -/
inductive Instruction where
  | operation (op : Operation)
  | ifStart
  /-- Jumps when the condition is 0. -/
  | thenJump (target : Option Nat)
  /-- Ends the taken branch: jumps always. -/
  | elseJump (target : Option Nat)
  | ifEnd
  deriving DecidableEq, Repr

end TerminalCaps.Template

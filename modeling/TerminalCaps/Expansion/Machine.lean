import TerminalCaps.Expansion.Field
import TerminalCaps.Template.Program

/-!
The machine that runs a program: nine parameters, two sets of variables and a stack of operands that
holds only so many. Taking an operand from an empty stack is no error.
-/
namespace TerminalCaps
namespace Expansion

/-- Operands, the last pushed first. `capacity` is how many there can be, `none` for no bound. -/
structure Stack where
  capacity : Option Nat := some 32
  operands : List Operand := []
  deriving DecidableEq, Repr

namespace Stack

def HasRoom (s : Stack) : Prop := s.capacity.all (s.operands.length < ·)

instance (s : Stack) : Decidable s.HasRoom := inferInstanceAs (Decidable (_ = _))

/-- The stack with one more operand, which is lost when the stack is full. -/
def push (s : Stack) (operand : Operand) : Stack :=
  if s.HasRoom then { s with operands := operand :: s.operands } else s

/-- The operand pushed last, and the stack below it. -/
def pop (s : Stack) : Option Operand × Stack :=
  (s.operands.head?, { s with operands := s.operands.tail })

/-- Takes a number, 0 from an empty stack. -/
def popNumber (s : Stack) : Int32 × Stack := (s.pop.1.elim 0 Operand.toNumber, s.pop.2)

/-- Takes a text, the empty one from an empty stack. -/
def popText (s : Stack) : Bytes × Stack := (s.pop.1.elim [] Operand.toText, s.pop.2)

@[simp] theorem capacity_push (s : Stack) (operand : Operand) :
    (s.push operand).capacity = s.capacity := by
  rw [push]
  split <;> rfl

end Stack

/-- The values of the variables of one set. -/
abbrev Variables := Vector Operand 26

/-- The variables before anything is stored. -/
def Variables.initial : Variables := Vector.replicate 26 .zero

structure Machine where
  parameters : Vector Operand 9
  dynamics : Variables
  statics : Variables
  stack : Stack
  deriving DecidableEq, Repr

namespace Machine

open Template (Variable Operation)

/-- The machine before a run. Parameters that are not given are 0, and those after the ninth are
ignored. -/
def start (statics : Variables) (parameters : List Parameter) : Machine where
  parameters := Vector.ofFn fun i => parameters[i]?.elim .zero Operand.ofParameter
  dynamics := .initial
  statics := statics
  stack := { }

def push (m : Machine) (operand : Operand) : Machine := { m with stack := m.stack.push operand }

def pushNumber (m : Machine) (value : Int32) : Machine := m.push (.number value)

def get (m : Machine) : Variable → Operand
  | .static letter => m.statics.get letter
  | .dynamic letter => m.dynamics.get letter

def set (m : Machine) (value : Operand) : Variable → Machine
  | .static letter => { m with statics := m.statics.set letter.val value letter.isLt }
  | .dynamic letter => { m with dynamics := m.dynamics.set letter.val value letter.isLt }

/-- One more, wrapping around, for a number; no change for a text. -/
def incremented : Operand → Operand
  | .number value => .number (value + 1)
  | operand => operand

def increment (m : Machine) : Machine :=
  { m with parameters := m.parameters.mapFinIdx fun i operand _ =>
      if i < 2 then incremented operand else operand }

/-- What a field writes when the stack is empty. -/
def missingOperand : Template.Conversion → Operand
  | .string => .string []
  | _ => .zero

/-- The greatest length of a text that a number can say. -/
def maxLength : Nat := 2147483647

/-- The bytes sent by an operation, and the machine after it. -/
def perform (m : Machine) : Operation → Except ExpansionError (Bytes × Machine)
  | .literal text => .ok (text, m)
  | .percent => .ok (['%'.toUInt8], m)
  | .increment => .ok ([], m.increment)
  | .character =>
    let (operand, stack) := m.stack.pop
    .ok (operand.elim [] Operand.toCharacter, { m with stack })
  | .field conversion spec => do
    let (operand, stack) := m.stack.pop
    let text ← spec.write conversion (operand.getD (missingOperand conversion))
    return (text, { m with stack })
  | .pushParameter index => .ok ([], m.push (m.parameters.get index))
  | .pushNumber value => .ok ([], m.pushNumber value)
  | .pushCharacter code => .ok ([], m.push (.character code))
  | .store target =>
    let (operand, stack) := m.stack.pop
    .ok ([], { m with stack }.set (operand.getD (.string [])) target)
  | .load source => .ok ([], m.push (m.get source))
  | .length =>
    let (text, stack) := m.stack.popText
    .ok ([], { m with stack }.pushNumber (Int32.ofNat (min text.length maxLength)))
  | .binary op =>
    let (y, stack) := m.stack.popNumber
    let (x, stack) := stack.popNumber
    .ok ([], { m with stack }.pushNumber (op.apply x y))
  | .unary op =>
    let (x, stack) := m.stack.popNumber
    .ok ([], { m with stack }.pushNumber (op.apply x))

end Machine

/-- What an instruction does: the bytes it sends, where the run goes on, and the machine then. -/
structure Step where
  output : Bytes
  position : Nat
  machine : Machine
  deriving DecidableEq, Repr

end Expansion

namespace Template.Program
open Expansion

/-- Where a jump leads; one without a target ends the program. -/
def destination (p : Program) (target : Option Nat) : Nat := target.getD p.size

/-- The step of the instruction at `position`, none past the end of the program. -/
def step? (p : Program) (position : Nat) (m : Machine) : Except ExpansionError (Option Step) :=
  match p.instructions[position]? with
  | none => .ok none
  | some (.operation op) => do
    let (output, m) ← m.perform op
    return some ⟨output, position + 1, m⟩
  | some .ifStart | some .ifEnd => .ok (some ⟨[], position + 1, m⟩)
  | some (.thenJump target) =>
    let (condition, stack) := m.stack.popNumber
    let next := if condition = 0 then p.destination target else position + 1
    .ok (some ⟨[], next, { m with stack }⟩)
  | some (.elseJump target) => .ok (some ⟨[], p.destination target, m⟩)

/-- The bytes sent and the machine left by at most `steps` steps from `position`. -/
def runFrom (p : Program) : (steps position : Nat) → Machine →
    Except ExpansionError (Bytes × Machine)
  | 0, _, m => .ok ([], m)
  | steps + 1, position, m => do
    match ← p.step? position m with
    | none => return ([], m)
    | some step =>
      let (output, m) ← p.runFrom steps step.position step.machine
      return (step.output ++ output, m)

/-- Runs the whole program. Linked jumps lead forward, so no run has more steps than the program has
instructions. -/
def run (p : Program) (m : Machine) : Except ExpansionError (Bytes × Machine) :=
  p.runFrom p.size 0 m

end Template.Program
end TerminalCaps

import TerminalCaps.Expansion.Session
import TerminalCaps.Proofs.Sequencing

/-!
What an operation does to each part of the machine: what it sends, what it takes from the stack and
puts there, which variable it changes, and when it fails. Later proofs go by these parts alone.
-/
namespace TerminalCaps
namespace Expansion

namespace Stack

/-- The stack without its uppermost operands. -/
def discard (s : Stack) : (count : Nat) → Stack
  | 0 => s
  | count + 1 => s.pop.2.discard count

theorem operands_discard (s : Stack) (count : Nat) :
    (s.discard count).operands = s.operands.drop count := by
  induction count generalizing s with
  | zero => rfl
  | succ count ih => rw [discard, ih, pop, List.drop_tail]

theorem mem_push {s : Stack} {operand other : Operand} (h : other ∈ (s.push operand).operands) :
    other = operand ∨ other ∈ s.operands := by
  unfold push at h
  split at h
  · exact List.mem_cons.1 h
  · exact .inr h

end Stack

end Expansion

namespace Template.Operation
open Expansion

/-- How many operands an operation takes from the stack. -/
def taken : Operation → Nat
  | .character | .field .. | .store _ | .length | .unary _ => 1
  | .binary _ => 2
  | _ => 0

/-- What an operation sends, which depends on nothing but the stack. -/
def written (stack : Stack) : Operation → Except ExpansionError Bytes
  | .literal text => .ok text
  | .percent => .ok ['%'.toUInt8]
  | .character => .ok (stack.operands.head?.elim [] Operand.toCharacter)
  | .field conversion spec =>
    spec.write conversion (stack.operands.head?.getD (Machine.missingOperand conversion))
  | _ => .ok []

end Template.Operation

namespace Expansion.Machine
open Template Sequencing

section Variables

theorem get_withStack (m : Machine) (stack : Stack) (v : Variable) :
    { m with stack }.get v = m.get v := by
  cases v <;> rfl

theorem vector_get_set {α : Type} {n : Nat} (values : Vector α n) (i j : Fin n) (value : α) :
    (values.set i.val value i.isLt).get j = if i = j then value else values.get j := by
  show (values.set i.val value i.isLt)[j.val] = if i = j then value else values[j.val]
  rw [Vector.getElem_set]
  simp only [Fin.ext_iff]

theorem get_set (m : Machine) (value : Operand) (target v : Variable) :
    (m.set value target).get v = if target = v then value else m.get v := by
  cases target with
  | static letter =>
    cases v with
    | static other =>
      simp only [Variable.static.injEq]
      exact vector_get_set m.statics letter other value
    | dynamic other => rfl
  | dynamic letter =>
    cases v with
    | static other => rfl
    | dynamic other =>
      simp only [Variable.dynamic.injEq]
      exact vector_get_set m.dynamics letter other value

end Variables

/-- The value that a `%P` stores: the operand pushed last, or the empty text. -/
def storedValue (m : Machine) : Operand := m.stack.operands.head?.getD (.string [])

/-- The operand that an operation puts on the stack, unless the stack is full. -/
def pushed? (m : Machine) : Operation → Option Operand
  | .pushParameter index => some (m.parameters.get index)
  | .pushNumber value => some (.number value)
  | .pushCharacter code => some (.character code)
  | .load source => some (m.get source)
  | .length => some (.number (Int32.ofNat (min m.stack.popText.1.length maxLength)))
  | .binary op => some (.number (op.apply m.stack.popNumber.2.popNumber.1 m.stack.popNumber.1))
  | .unary op => some (.number (op.apply m.stack.popNumber.1))
  | _ => none

/-- The machine after an operation. -/
def after (m : Machine) (op : Operation) : Machine :=
  let rest := m.stack.discard op.taken
  let moved : Machine := { m with stack := (m.pushed? op).elim rest rest.push }
  match op with
  | .increment => moved.increment
  | .store target => moved.set m.storedValue target
  | _ => moved

/-- An operation fails if it cannot write its text, and has always the same effect otherwise. -/
theorem perform_eq (m : Machine) (op : Operation) :
    m.perform op = (op.written m.stack).map fun text => (text, m.after op) := by
  cases op with
  | field conversion spec =>
    show (spec.write conversion (m.stack.operands.head?.getD _) >>= _) = Except.map _
      (spec.write conversion (m.stack.operands.head?.getD (missingOperand conversion)))
    cases spec.write conversion (m.stack.operands.head?.getD (missingOperand conversion)) <;> rfl
  | _ => rfl

/-- Only `%P` changes a variable. -/
theorem get_after (m : Machine) (op : Operation) (v : Variable) :
    (m.after op).get v = if op = .store v then m.storedValue else m.get v := by
  cases op with
  | store target =>
    simp only [Operation.store.injEq]
    exact get_set _ _ target v
  | _ => cases v <;> rfl

theorem stack_after (m : Machine) (op : Operation) : (m.after op).stack =
    (m.pushed? op).elim (m.stack.discard op.taken) (m.stack.discard op.taken).push := by
  cases op with
  | store target => cases target <;> rfl
  | _ => rfl

/-- Only `%i` changes a parameter. -/
theorem parameters_after (m : Machine) (op : Operation) : (m.after op).parameters =
    if op = .increment then m.increment.parameters else m.parameters := by
  cases op with
  | store target => cases target <;> rfl
  | _ => rfl

/-- An operand on the stack after an operation was there before, or the operation puts it there. -/
theorem mem_stack_after {m : Machine} {op : Operation} {operand : Operand}
    (h : operand ∈ (m.after op).stack.operands) :
    m.pushed? op = some operand ∨ operand ∈ m.stack.operands := by
  have hrest : operand ∈ (m.stack.discard op.taken).operands → operand ∈ m.stack.operands := by
    rw [Stack.operands_discard]
    exact List.mem_of_mem_drop
  rw [stack_after] at h
  cases hpushed : m.pushed? op with
  | none =>
    rw [hpushed] at h
    exact .inr (hrest h)
  | some value =>
    rw [hpushed] at h
    rcases Stack.mem_push h with rfl | h
    · exact .inl rfl
    · exact .inr (hrest h)

end Expansion.Machine
end TerminalCaps

import TerminalCaps.Proofs.Expansion.Dependence

/-!
The bound of the stack. It is never passed, it is felt by nothing but an operation that puts an
operand on a full stack and takes none from it, and a run that would stay within the bound on its
own is the same without it.
-/
namespace TerminalCaps
namespace Expansion

namespace Stack

variable {s : Stack} {limit : Nat}

/-- The stack with no bound. -/
def unbounded (s : Stack) : Stack := { s with capacity := none }

/-- There are no more operands than the stack can hold. -/
structure Within (s : Stack) (limit : Nat) : Prop where
  capacity : s.capacity = some limit
  length_le : s.operands.length ≤ limit

theorem hasRoom_iff (h : s.capacity = some limit) : s.HasRoom ↔ s.operands.length < limit := by
  simp [HasRoom, h]

theorem operands_push_of_hasRoom (h : s.HasRoom) (operand : Operand) :
    (s.push operand).operands = operand :: s.operands := by
  simp only [push, if_pos h]

theorem push_of_not_hasRoom (h : ¬ s.HasRoom) (operand : Operand) : s.push operand = s :=
  if_neg h

theorem capacity_discard (s : Stack) (count : Nat) : (s.discard count).capacity = s.capacity := by
  induction count generalizing s with
  | zero => rfl
  | succ count ih => exact ih s.pop.2

theorem unbounded_discard (s : Stack) (count : Nat) :
    (s.discard count).unbounded = s.unbounded.discard count := by
  induction count generalizing s with
  | zero => rfl
  | succ count ih => exact ih s.pop.2

theorem unbounded_push (h : s.HasRoom) (operand : Operand) :
    (s.push operand).unbounded = s.unbounded.push operand := by
  simp only [push, if_pos h, unbounded]
  rfl

theorem Within.discard (h : s.Within limit) (count : Nat) : (s.discard count).Within limit where
  capacity := (capacity_discard s count).trans h.capacity
  length_le := by
    simp only [operands_discard, List.length_drop]
    exact Nat.le_trans (Nat.sub_le _ _) h.length_le

theorem Within.push (h : s.Within limit) (operand : Operand) : (s.push operand).Within limit := by
  by_cases hroom : s.HasRoom
  · refine ⟨(capacity_push s operand).trans h.capacity, ?_⟩
    simp only [operands_push_of_hasRoom hroom, List.length_cons]
    exact (hasRoom_iff h.capacity).1 hroom
  · rwa [push_of_not_hasRoom hroom]

end Stack
end Expansion

namespace Template.Operation
open Expansion

/-- The operations that put an operand on the stack and take none from it. -/
def OnlyPushes : Operation → Prop
  | .pushParameter _ | .pushNumber _ | .pushCharacter _ | .load _ => True
  | _ => False

theorem onlyPushes_iff {op : Operation} {m : Machine} {operand : Operand}
    (h : m.pushed? op = some operand) : op.OnlyPushes ↔ op.taken = 0 := by
  cases op <;> cases h <;> simp [OnlyPushes, taken]

end Template.Operation

namespace Expansion.Machine
open Template

variable {m : Machine} {op : Operation} {operand : Operand} {limit : Nat}

/-- The machine with no bound on its stack. -/
def unbounded (m : Machine) : Machine := { m with stack := m.stack.unbounded }

/-- An operand that the operation should put on the stack is not there afterwards. -/
def Loses (m : Machine) (op : Operation) (operand : Operand) : Prop :=
  m.pushed? op = some operand ∧
    (m.after op).stack.operands ≠ operand :: m.stack.operands.drop op.taken

theorem within_after (h : m.stack.Within limit) (op : Operation) :
    (m.after op).stack.Within limit := by
  rw [stack_after]
  cases m.pushed? op with
  | none => exact h.discard op.taken
  | some operand => exact (h.discard op.taken).push operand

theorem loses_iff_not_hasRoom : m.Loses op operand ↔
    m.pushed? op = some operand ∧ ¬ (m.stack.discard op.taken).HasRoom := by
  refine and_congr_right fun hpushed => ?_
  rw [stack_after, hpushed, ← Stack.operands_discard]
  constructor
  · intro hlost hroom
    exact hlost (Stack.operands_push_of_hasRoom hroom operand)
  · intro hfull hkept
    have hlength := congrArg List.length hkept
    simp [Stack.push_of_not_hasRoom hfull] at hlength

/-- After an operand has been taken there is room for the result. -/
theorem loses_iff (h : m.stack.Within (limit + 1)) :
    m.Loses op operand ↔ m.pushed? op = some operand ∧ op.OnlyPushes ∧
      m.stack.operands.length = limit + 1 := by
  have hroom := Stack.hasRoom_iff (h.discard op.taken).capacity
  have hlength := h.length_le
  simp only [Stack.operands_discard, List.length_drop] at hroom
  rw [loses_iff_not_hasRoom, hroom]
  refine and_congr_right fun hpushed => ?_
  rw [Operation.onlyPushes_iff hpushed]
  omega

theorem pushed?_unbounded (m : Machine) (op : Operation) :
    m.unbounded.pushed? op = m.pushed? op := by
  cases op <;> rfl

/-- All but the stack is the same without the bound. -/
theorem withStack_after_unbounded (m : Machine) (op : Operation) (stack : Stack) :
    { m.unbounded.after op with stack } = { m.after op with stack } := by
  cases op with
  | store target => cases target <;> rfl
  | _ => rfl

theorem stack_after_unbounded (h : ∀ operand, ¬ m.Loses op operand) :
    (m.unbounded.after op).stack = (m.after op).stack.unbounded := by
  have hdiscard := (Stack.unbounded_discard m.stack op.taken).symm
  rw [stack_after, stack_after, pushed?_unbounded]
  cases hpushed : m.pushed? op with
  | none => exact hdiscard
  | some operand =>
    have hroom : (m.stack.discard op.taken).HasRoom := by
      by_contra hfull
      exact h operand (loses_iff_not_hasRoom.2 ⟨hpushed, hfull⟩)
    calc (m.unbounded.stack.discard op.taken).push operand
        = (m.stack.discard op.taken).unbounded.push operand := congrArg (Stack.push · operand) hdiscard
      _ = ((m.stack.discard op.taken).push operand).unbounded :=
        (Stack.unbounded_push hroom operand).symm

/-- A machine with a bound, and one without that is the same as long as it stays within the bound. -/
structure Tracks (limit : Nat) (bounded free : Machine) : Prop where
  within : bounded.stack.Within limit
  statics : free.statics = bounded.statics
  same : free.stack.operands.length ≤ limit → free = bounded.unbounded

theorem tracks_unbounded (h : m.stack.Within limit) : Tracks limit m m.unbounded :=
  ⟨h, rfl, fun _ => rfl⟩

theorem tracks_after (h : m.stack.Within (limit + 1)) (op : Operation) :
    Tracks (limit + 1) (m.after op) (m.unbounded.after op) where
  within := within_after h op
  statics := by
    have hrest := congrArg Machine.statics (withStack_after_unbounded m op { })
    exact hrest
  same := by
    intro hlength
    have hkept : ∀ operand, ¬ m.Loses op operand := by
      -- An operand that is lost would be one too many on the stack without the bound.
      intro operand hloses
      obtain ⟨hpushed, honly, hfull⟩ := (loses_iff h).1 hloses
      have htaken := (Operation.onlyPushes_iff hpushed).1 honly
      rw [stack_after, pushed?_unbounded, hpushed, htaken] at hlength
      change m.stack.operands.length + 1 ≤ limit + 1 at hlength
      omega
    calc m.unbounded.after op
        = { m.unbounded.after op with stack := (m.unbounded.after op).stack } := rfl
      _ = { m.after op with stack := (m.unbounded.after op).stack } :=
        withStack_after_unbounded m op _
      _ = (m.after op).unbounded := by
        rw [stack_after_unbounded hkept]
        rfl

end Expansion.Machine

namespace Template.Program
open Expansion

variable {p : Program} {limit : Nat} {m free : Machine}

/-- The stack is within its bound at every visit. -/
theorem preserves_within (limit : Nat) :
    p.Preserves fun _ visit => visit.machine.stack.Within limit := by
  intro before visit step hvisit hstep
  rcases machine_of_step? hstep with ⟨op, -, hmachine⟩ | ⟨-, count, hmachine⟩
  · exact hmachine ▸ Machine.within_after hvisit op
  · exact hmachine ▸ hvisit.discard count

/-- Two steps to the same place, that send the same and leave machines of which one tracks the
other. -/
def TracksStep (limit : Nat) (a b : Step) : Prop :=
  a.output = b.output ∧ a.position = b.position ∧ Machine.Tracks limit a.machine b.machine

/-- One step does the same without the bound, but for an operand that it may lose. -/
theorem tracks_step? (h : m.stack.Within (limit + 1)) (position : Nat) :
    Corresponding (Option.Rel (TracksStep (limit + 1))) (p.step? position m)
      (p.step? position m.unbounded) := by
  cases hget : p.instructions[position]? with
  | none =>
    unfold Program.step?
    rw [hget]
    exact .ok .none
  | some instruction =>
    cases instruction with
    | operation op =>
      have hwritten : op.written m.unbounded.stack = op.written m.stack := by
        cases op <;> rfl
      rw [step?_of_operation hget, step?_of_operation hget, hwritten]
      cases op.written m.stack with
      | error e => exact .error e
      | ok text => exact .ok (.some ⟨rfl, rfl, Machine.tracks_after h op⟩)
    | ifStart | ifEnd | elseJump target =>
      unfold Program.step?
      rw [hget]
      exact .ok (.some ⟨rfl, rfl, Machine.tracks_unbounded h⟩)
    | thenJump target =>
      unfold Program.step?
      rw [hget]
      exact .ok (.some ⟨rfl, rfl, Machine.tracks_unbounded (h.discard 1)⟩)

theorem step?_ne_none {position : Nat} {instruction : Instruction}
    (h : p.instructions[position]? = some instruction) (m : Machine) :
    p.step? position m ≠ .ok none := by
  cases instruction with
  | operation op =>
    rw [step?_of_operation h]
    cases op.written m.stack <;> exact fun hnone => nomatch hnone
  | _ =>
    unfold Program.step?
    rw [h]
    exact fun hnone => nomatch hnone

theorem mem_visitsFrom_self {steps position : Nat} (h : p.step? position m ≠ .ok none) :
    ⟨position, m⟩ ∈ p.visitsFrom (steps + 1) position m := by
  cases hfound : p.step? position m with
  | error e =>
    rw [visitsFrom_of_error hfound]
    exact List.mem_cons_self
  | ok found =>
    cases found with
    | none => exact absurd hfound h
    | some step =>
      rw [visitsFrom_of_step hfound]
      exact List.mem_cons_self

theorem tracks_runFrom (h : Machine.Tracks (limit + 1) m free) (steps position : Nat)
    (hfree : ∀ visit ∈ p.visitsFrom steps position free,
      visit.machine.stack.operands.length ≤ limit + 1) :
    Corresponding (fun a b => a.1 = b.1 ∧ a.2.statics = b.2.statics)
      (p.runFrom steps position m) (p.runFrom steps position free) := by
  induction steps generalizing position m free with
  | zero => exact .ok ⟨rfl, h.statics.symm⟩
  | succ steps ih =>
    cases hget : p.instructions[position]? with
    | none =>
      have hsize := Array.getElem?_eq_none_iff.1 hget
      rw [runFrom_of_end (step?_of_size_le hsize m), runFrom_of_end (step?_of_size_le hsize free)]
      exact .ok ⟨rfl, h.statics.symm⟩
    | some instruction =>
      -- The machine without the bound is visited here, so up to here nothing has been lost.
      obtain rfl := h.same (hfree _ (mem_visitsFrom_self (step?_ne_none hget free)))
      rcases (tracks_step? h.within position).cases with
        ⟨e, hbounded, hunbounded⟩ | ⟨a, b, hbounded, hunbounded, hsteps⟩
      · rw [runFrom_of_error hbounded, runFrom_of_error hunbounded]
        exact .error e
      · cases hsteps with
        | none => exact absurd hbounded (step?_ne_none hget m)
        | @some a b hsteps =>
          obtain ⟨houtput, hposition, htracks⟩ := hsteps
          rw [visitsFrom_of_step hunbounded, List.forall_mem_cons, ← hposition] at hfree
          have hrest := ih htracks a.position hfree.2
          rw [runFrom_of_step hbounded, runFrom_of_step hunbounded, ← houtput, ← hposition]
          refine hrest.bind fun c d hcd => ?_
          exact .ok ⟨congrArg (a.output ++ ·) hcd.1, hcd.2⟩

end Template.Program

namespace Expansion
open Template

theorem Machine.within_start (statics : Variables) (parameters : List Parameter) :
    (start statics parameters).stack.Within 32 :=
  ⟨rfl, Nat.zero_le _⟩

/-- The output of a program on a machine whose stack has no bound, and the session after it. -/
def Session.runUnbounded (s : Session) (p : Program) (parameters : List Parameter) :
    Except ExpansionError (Bytes × Session) := do
  let (output, m) ← p.run (Machine.start s.statics parameters).unbounded
  return (output, ⟨m.statics⟩)

/-- The stack never holds more than 32 operands. An operand is lost exactly when a `%p`, a constant
or a `%g` finds the stack full, so never as the result of an operation on other operands. If no
instruction finds more than 32 operands on a stack without bound, the bound changes neither the
output nor the variables of the session. -/
theorem Session.run_within_capacity (s : Session) (p : Program) (parameters : List Parameter) :
    let m := Machine.start s.statics parameters
    (∀ visit ∈ p.visits m, visit.machine.stack.operands.length ≤ 32) ∧
    (∀ output m', p.run m = .ok (output, m') → m'.stack.operands.length ≤ 32) ∧
    (∀ visit ∈ p.visits m, ∀ op, p.operationAt? visit = some op → ∀ operand,
      visit.machine.Loses op operand ↔ visit.machine.pushed? op = some operand ∧ op.OnlyPushes ∧
        visit.machine.stack.operands.length = 32) ∧
    ((∀ visit ∈ p.visits m.unbounded, visit.machine.stack.operands.length ≤ 32) →
      s.runUnbounded p parameters = s.run p parameters) := by
  intro m
  have hstart : m.stack.Within 32 := Machine.within_start s.statics parameters
  have hvisits : ∀ visit ∈ p.visits m, visit.machine.stack.Within 32 := by
    intro visit hvisit
    obtain ⟨before, later, hsplit⟩ := List.append_of_mem hvisit
    exact (Program.preserves_within 32).visits hstart hsplit
  refine ⟨fun visit hvisit => (hvisits visit hvisit).length_le, ?_, ?_, ?_⟩
  · intro output m' hrun
    obtain ⟨last, hlast⟩ := (Program.preserves_within 32).run hstart hrun
    exact hlast.length_le
  · exact fun visit hvisit op _ operand => Machine.loses_iff (hvisits visit hvisit)
  · intro hfree
    have hrun := Program.tracks_runFrom (Machine.tracks_unbounded hstart) p.size 0 hfree
    rcases hrun.cases with ⟨e, hbounded, hunbounded⟩ | ⟨a, b, hbounded, hunbounded, houtput, hstatics⟩
    · rw [runUnbounded, Session.run, Program.run, Program.run, hunbounded, hbounded]
    · rw [runUnbounded, Session.run, Program.run, Program.run, hunbounded, hbounded]
      change Except.ok (b.1, (⟨b.2.statics⟩ : Session)) = .ok (a.1, ⟨a.2.statics⟩)
      rw [houtput, hstatics]

/-- Pushes the first parameter `count` times, and sends the sum. -/
def pushSum (count : Nat) : Bytes :=
  (List.replicate count (Bytes.ofAscii "%p1")).flatten ++
    (List.replicate (count - 1) (Bytes.ofAscii "%+")).flatten ++ Bytes.ofAscii "%d"

theorem Session.run_within_capacity_pushSum :
    let full := Program.compile (pushSum 32)
    let m := Machine.start Variables.initial [.number 3]
    (∀ visit ∈ full.visits m.unbounded, visit.machine.stack.operands.length ≤ 32) ∧
    initial.runUnbounded full [.number 3] = initial.run full [.number 3] ∧
    initial.run full [.number 3] = .ok (Bytes.ofAscii "96", initial) ∧
    ∃ visit ∈ (Program.compile (pushSum 33)).visits m,
      visit.machine.Loses (.pushParameter 0) (.number 3) := by
  intro full m
  have hfree : ∀ visit ∈ full.visits m.unbounded, visit.machine.stack.operands.length ≤ 32 := by
    decide +kernel
  have hlost : ∃ visit ∈ (Program.compile (pushSum 33)).visits m,
      (Program.compile (pushSum 33)).operationAt? visit = some (.pushParameter 0) ∧
        visit.machine.pushed? (.pushParameter 0) = some (.number 3) ∧
        visit.machine.stack.operands.length = 32 := by
    decide +kernel
  refine ⟨hfree, (run_within_capacity initial full [.number 3]).2.2.2 hfree, by decide +kernel, ?_⟩
  obtain ⟨visit, hvisit, hop, hpushed, hlength⟩ := hlost
  have hloses := (run_within_capacity initial _ [.number 3]).2.2.1 visit hvisit _ hop (.number 3)
  exact ⟨visit, hvisit, hloses.2 ⟨hpushed, trivial, hlength⟩⟩

/-- With one operand more than there is room for, the run is not the same. -/
example : Session.initial.runUnbounded (.compile (pushSum 33)) [.number 3] ≠
    Session.initial.run (.compile (pushSum 33)) [.number 3] := by
  decide +kernel

end Expansion
end TerminalCaps

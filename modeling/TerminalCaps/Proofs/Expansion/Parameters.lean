import TerminalCaps.Proofs.Expansion.Dependence

/-!
The parameters of a run. Nothing but `%i` changes one, so what a `%p` puts on the stack is the given
value, and for the first two parameters as many more as `%i` has been executed before.
-/
namespace TerminalCaps

namespace Expansion

/-- A parameter after some `%i`: of the first two, a number is greater by as many, wrapping around. -/
def raised (index : Fin 9) (count : Nat) : Operand → Operand
  | .number value => .number (if index.val < 2 then value + Int32.ofNat count else value)
  | operand => operand

theorem raised_zero (index : Fin 9) (operand : Operand) : raised index 0 operand = operand := by
  cases operand with
  | number value => simp [raised]
  | _ => rfl

theorem raised_of_le {index : Fin 9} (h : 2 ≤ index.val) (count : Nat) (operand : Operand) :
    raised index count operand = operand := by
  cases operand with
  | number value => rw [raised, if_neg (Nat.not_lt.2 h)]
  | _ => rfl

theorem raised_succ (index : Fin 9) (count : Nat) (operand : Operand) :
    raised index (count + 1) operand =
      if index.val < 2 then Machine.incremented (raised index count operand)
      else raised index count operand := by
  cases operand with
  | number value =>
    by_cases h : index.val < 2
    · simp only [raised, if_pos h, Machine.incremented, Int32.ofNat_add, ← Int32.add_assoc]
      rfl
    · simp only [raised, if_neg h]
  | _ => exact (ite_self _).symm

end Expansion

namespace Template.Program
open Expansion

variable {p : Program} {before later : List Visit} {visit : Visit}

/-- The operations that some visits perform, in their order. -/
def performed (p : Program) (visits : List Visit) : List Operation :=
  visits.filterMap p.operationAt?

theorem performed_concat (before : List Visit) (visit : Visit) :
    p.performed (before ++ [visit]) = p.performed before ++ (p.operationAt? visit).toList := by
  unfold performed
  rw [List.filterMap_append]
  cases h : p.operationAt? visit <;> simp [h]

/-- The parameters are the given ones, raised by the `%i` of the visits that were made. -/
def Carries (p : Program) (parameters : List Parameter) (before : List Visit) (m : Machine) : Prop :=
  ∀ index, m.parameters.get index =
    raised index ((p.performed before).count .increment) (given parameters index)

theorem carries_start (p : Program) (statics : Variables) (parameters : List Parameter) :
    p.Carries parameters [] (.start statics parameters) := by
  intro index
  rw [Machine.get_parameters_start]
  exact (raised_zero index _).symm

/-- Every step leaves the parameters as they are, or is a `%i` and raises the first two. -/
theorem preserves_carries (p : Program) (parameters : List Parameter) :
    p.Preserves fun before visit => p.Carries parameters before visit.machine := by
  intro before visit step hvisit hstep index
  rw [performed_concat, List.count_append]
  obtain ⟨op, hop, hmachine⟩ | ⟨hop, taken, hmachine⟩ := machine_of_step? hstep
  · rw [hmachine, hop, Machine.parameters_after]
    by_cases h : op = .increment
    · subst h
      rw [if_pos rfl, Machine.get_parameters_increment, hvisit index]
      exact (raised_succ index _ _).symm
    · have hcount : (some op).toList.count .increment = 0 :=
        List.count_eq_zero.2 fun hmem => h (List.mem_singleton.1 hmem).symm
      rw [if_neg h, hcount]
      exact hvisit index
  · rw [hmachine, hop]
    exact hvisit index

theorem step?_pushParameter {index : Fin 9}
    (h : p.operationAt? visit = some (.pushParameter index)) :
    p.step? visit.position visit.machine =
      .ok (some ⟨[], visit.position + 1,
        visit.machine.push (visit.machine.parameters.get index)⟩) := by
  rw [step?_of_operation (operationAt?_eq_some_iff.1 h)]
  rfl

end Template.Program

namespace Expansion
open Template

section Given

variable {parameters : List Parameter}

/-- Parameters after the ninth are not read, and those that are missing are 0. -/
theorem given_rightpad (parameters : List Parameter) (index : Fin 9) :
    given ((parameters.take 9).rightpad 9 (.number 0)) index = given parameters index := by
  unfold given
  rw [List.rightpad]
  by_cases h : index.val < (parameters.take 9).length
  · rw [Fin.getElem?_fin, Fin.getElem?_fin, List.getElem?_append_left h,
      List.getElem?_take_of_lt index.isLt]
  · have hmissing : parameters[index.val]? = none := by
      rw [List.length_take] at h
      exact List.getElem?_eq_none (by omega)
    have hpadded : index.val - (parameters.take 9).length < 9 - (parameters.take 9).length := by
      omega
    rw [Fin.getElem?_fin, Fin.getElem?_fin, List.getElem?_append_right (Nat.not_lt.1 h),
      List.getElem?_replicate_of_lt hpadded, hmissing]
    rfl

theorem Machine.start_congr (statics : Variables) {others : List Parameter}
    (h : ∀ index, given parameters index = given others index) :
    start statics parameters = start statics others := by
  unfold start
  congr 1
  ext i hi
  rw [Vector.getElem_ofFn, Vector.getElem_ofFn]
  exact h ⟨i, hi⟩

end Given

/-- A `%p` puts the given parameter on the stack, or 0 if there is none. A number that is one of the
first two parameters is greater by the number of `%i` executed before. Nothing else of the parameters
changes in a run, and of the given ones the first nine count, with zeros for those that are missing. -/
theorem Session.run_keeps_parameters (s : Session) (p : Program) (parameters : List Parameter) :
    let m := Machine.start s.statics parameters
    (∀ before visit later, p.visits m = before ++ visit :: later → ∀ index,
      visit.machine.parameters.get index =
        raised index ((p.performed before).count .increment) (given parameters index)) ∧
    (∀ before visit later, p.visits m = before ++ visit :: later → ∀ index,
      p.operationAt? visit = some (.pushParameter index) →
      p.step? visit.position visit.machine = .ok (some ⟨[], visit.position + 1,
        visit.machine.push (raised index ((p.performed before).count .increment)
          (given parameters index))⟩)) ∧
    (∀ visit ∈ p.visits m, ∀ index,
      (2 ≤ index.val ∨ ∃ text, given parameters index = .string text) →
        visit.machine.parameters.get index = given parameters index) ∧
    (∀ output m', p.run m = .ok (output, m') → ∀ index,
      m'.parameters.get index =
        raised index ((p.performed (p.visits m)).count .increment) (given parameters index)) ∧
    s.run p ((parameters.take 9).rightpad 9 (.number 0)) = s.run p parameters := by
  intro m
  have hstart := p.carries_start s.statics parameters
  have hvisits : ∀ before visit later, p.visits m = before ++ visit :: later →
      p.Carries parameters before visit.machine := fun before visit later hvisit =>
    (p.preserves_carries parameters).visits hstart hvisit
  refine ⟨hvisits, ?_, ?_, ?_, ?_⟩
  · intro before visit later hvisit index hop
    rw [Program.step?_pushParameter hop, hvisits before visit later hvisit index]
  · intro visit hvisit index hkept
    obtain ⟨before, later, hsplit⟩ := List.append_of_mem hvisit
    rw [hvisits before visit later hsplit index]
    obtain hlarge | ⟨text, htext⟩ := hkept
    · exact raised_of_le hlarge _ _
    · rw [htext]
      rfl
  · intro output m' hrun
    obtain ⟨last, hlast⟩ := (p.preserves_carries parameters).run hstart hrun
    exact hlast
  · rw [Session.run, Session.run, Machine.start_congr s.statics (given_rightpad parameters)]

/-- Of four `%i`, the two in the branch that is not taken are not executed. -/
def branchedRaise : Program := .compile (Bytes.ofAscii "%?%\x7b1\x7d%t%i%e%i%i%;%i%p1%d%p2%s")

theorem Session.run_keeps_parameters_branchedRaise :
    let parameters : List Parameter := [.number Int32.maxValue, .string ['x'.toUInt8]]
    let visits := branchedRaise.visits (.start .initial parameters)
    ∃ before visit later, visits = before ++ visit :: later ∧
      branchedRaise.operationAt? visit = some (.pushParameter 0) ∧
      (branchedRaise.performed before).count .increment = 2 ∧
      branchedRaise.step? visit.position visit.machine = .ok (some ⟨[], visit.position + 1,
        visit.machine.push (.number (Int32.minValue + 1))⟩) ∧
      initial.run branchedRaise ((parameters.take 9).rightpad 9 (.number 0)) =
        .ok (Bytes.ofAscii "-2147483647x", initial) := by
  intro parameters visits
  have hsplit : visits = visits.take 7 ++ visits.getD 7 ⟨0, .start .initial []⟩ :: visits.drop 8 := by
    decide +kernel
  have hop : branchedRaise.operationAt? (visits.getD 7 ⟨0, .start .initial []⟩) =
      some (.pushParameter 0) := by
    decide +kernel
  have hcount : (branchedRaise.performed (visits.take 7)).count .increment = 2 := by
    decide +kernel
  obtain ⟨-, hpush, -, -, hpadded⟩ := run_keeps_parameters initial branchedRaise parameters
  have hstep := hpush _ _ _ hsplit 0 hop
  rw [hcount] at hstep
  refine ⟨_, _, _, hsplit, hop, hcount, hstep, ?_⟩
  rw [hpadded]
  decide +kernel

end Expansion
end TerminalCaps

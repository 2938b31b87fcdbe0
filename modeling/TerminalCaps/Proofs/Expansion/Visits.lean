import TerminalCaps.Proofs.Expansion.Effects
import TerminalCaps.Proofs.Expansion.Resumption

/-!
The visits of a run: where it comes, one place after another, and the machine it has there. A run
fails exactly if the last of them does, and what every step preserves holds at each of them.
-/
namespace TerminalCaps
namespace Expansion

/-- A place of a run, and the machine before the instruction there. -/
structure Visit where
  position : Nat
  machine : Machine
  deriving DecidableEq, Repr

end Expansion

namespace Template.Program
open Expansion Sequencing

variable {p : Program} {steps position : Nat} {m : Machine}

/-- The visits of at most `steps` steps from `position`, in their order. -/
def visitsFrom (p : Program) : (steps position : Nat) → Machine → List Visit
  | 0, _, _ => []
  | steps + 1, position, m =>
    match p.step? position m with
    | .error _ => [⟨position, m⟩]
    | .ok none => []
    | .ok (some step) => ⟨position, m⟩ :: p.visitsFrom steps step.position step.machine

/-- The visits of the whole run. -/
def visits (p : Program) (m : Machine) : List Visit := p.visitsFrom p.size 0 m

/-- The operation that a visit performs, if it is one. -/
def operationAt? (p : Program) (visit : Visit) : Option Operation :=
  match p.instructions[visit.position]? with
  | some (.operation op) => some op
  | _ => none

theorem operationAt?_eq_some_iff {visit : Visit} {op : Operation} :
    p.operationAt? visit = some op ↔
      p.instructions[visit.position]? = some (.operation op) := by
  unfold operationAt?
  cases p.instructions[visit.position]? with
  | none => simp
  | some instruction => cases instruction <;> simp

theorem step?_of_operation {op : Operation}
    (h : p.instructions[position]? = some (.operation op)) : p.step? position m =
      (op.written m.stack).map fun output => some ⟨output, position + 1, m.after op⟩ := by
  rw [step?, h]
  show (m.perform op >>= _) = _
  rw [Machine.perform_eq]
  cases op.written m.stack <;> rfl

/-- A step performs an operation, or does no more than take operands from the stack. -/
theorem machine_of_step? {visit : Visit} {step : Step}
    (h : p.step? visit.position visit.machine = .ok (some step)) :
    (∃ op, p.operationAt? visit = some op ∧ step.machine = visit.machine.after op) ∨
    (p.operationAt? visit = none ∧ ∃ count,
      step.machine = { visit.machine with stack := visit.machine.stack.discard count }) := by
  rcases step?_cases h with ⟨instruction, hget, hstep⟩
  unfold operationAt?
  cases instruction with
  | operation op =>
    rw [step?_of_operation hget] at h
    left
    refine ⟨op, by rw [hget], ?_⟩
    cases hwritten : op.written visit.machine.stack with
    | error e =>
      rw [hwritten] at h
      cases h
    | ok text =>
      rw [hwritten] at h
      cases h
      rfl
  | ifStart | ifEnd | elseJump target =>
    right
    rw [hget]
    exact ⟨rfl, 0, congrArg Step.machine hstep⟩
  | thenJump target =>
    right
    rw [hget]
    exact ⟨rfl, 1, congrArg Step.machine hstep⟩

theorem get_of_step? {visit : Visit} {step : Step}
    (h : p.step? visit.position visit.machine = .ok (some step)) (v : Variable) :
    step.machine.get v = if p.operationAt? visit = some (.store v) then visit.machine.storedValue
      else visit.machine.get v := by
  rcases machine_of_step? h with ⟨op, hop, hmachine⟩ | ⟨hop, count, hmachine⟩
  · rw [hmachine, hop, Machine.get_after]
    simp only [Option.some.injEq]
  · rw [hmachine, hop, if_neg nofun, Machine.get_withStack]

section Steps

variable {step : Step} {error : ExpansionError} {output : Bytes} {m' : Machine}

theorem runFrom_of_error (h : p.step? position m = .error error) :
    p.runFrom (steps + 1) position m = .error error := by
  rw [runFrom, h]
  rfl

theorem runFrom_of_end (h : p.step? position m = .ok none) :
    p.runFrom (steps + 1) position m = .ok ([], m) := by
  rw [runFrom, h]
  rfl

theorem runFrom_of_step (h : p.step? position m = .ok (some step)) :
    p.runFrom (steps + 1) position m =
      andThen (.ok (step.output, step.machine)) (p.runFrom steps step.position) := by
  rw [runFrom, h]
  rfl

theorem visitsFrom_of_error (h : p.step? position m = .error error) :
    p.visitsFrom (steps + 1) position m = [⟨position, m⟩] := by
  rw [visitsFrom, h]

theorem visitsFrom_of_end (h : p.step? position m = .ok none) :
    p.visitsFrom (steps + 1) position m = [] := by
  rw [visitsFrom, h]

theorem visitsFrom_of_step (h : p.step? position m = .ok (some step)) :
    p.visitsFrom (steps + 1) position m =
      ⟨position, m⟩ :: p.visitsFrom steps step.position step.machine := by
  rw [visitsFrom, h]

theorem andThen_ok_eq_error_iff {next : Machine → Outcome} :
    andThen (.ok (output, m)) next = .error error ↔ next m = .error error := by
  show (next m >>= _) = _ ↔ _
  cases next m with
  | error e => rfl
  | ok result => simp [bind, Except.bind, pure, Except.pure]

theorem andThen_ok_eq_ok_iff {next : Machine → Outcome} {all : Bytes} :
    andThen (.ok (output, m)) next = .ok (all, m') ↔
      ∃ more, next m = .ok (more, m') ∧ output ++ more = all := by
  show (next m >>= _) = _ ↔ _
  cases next m with
  | error e => simp [bind, Except.bind]
  | ok result =>
    simp only [bind, Except.bind, pure, Except.pure, Except.ok.injEq, Prod.mk.injEq]
    constructor
    · rintro ⟨houtput, rfl⟩
      exact ⟨result.1, rfl, houtput⟩
    · rintro ⟨more, rfl, houtput⟩
      exact ⟨houtput, rfl⟩

/-- A run fails exactly if it makes a visit at which the step fails. -/
theorem runFrom_eq_error_iff : p.runFrom steps position m = .error error ↔
    ∃ visit ∈ p.visitsFrom steps position m,
      p.step? visit.position visit.machine = .error error := by
  induction steps generalizing position m with
  | zero => simp [runFrom, visitsFrom]
  | succ steps ih =>
    cases hfound : p.step? position m with
    | error e =>
      rw [runFrom_of_error hfound, visitsFrom_of_error hfound]
      simp only [List.mem_singleton, exists_eq_left, hfound]
    | ok found =>
      cases found with
      | none =>
        rw [runFrom_of_end hfound, visitsFrom_of_end hfound]
        simp
      | some step =>
        rw [runFrom_of_step hfound, visitsFrom_of_step hfound, andThen_ok_eq_error_iff, ih]
        simp [hfound]

end Steps

section Invariant

/-- An invariant may speak of the visits that were made before. -/
def Preserves (p : Program) (Inv : List Visit → Visit → Prop) : Prop :=
  ∀ before visit step, Inv before visit →
    p.step? visit.position visit.machine = .ok (some step) →
      Inv (before ++ [visit]) ⟨step.position, step.machine⟩

variable {Inv : List Visit → Visit → Prop} {before middle later : List Visit} {visit : Visit}

theorem Preserves.visitsFrom (hstep : p.Preserves Inv) (h : Inv before ⟨position, m⟩)
    (hvisit : p.visitsFrom steps position m = middle ++ visit :: later) :
    Inv (before ++ middle) visit := by
  induction steps generalizing before middle position m with
  | zero => simp [Program.visitsFrom] at hvisit
  | succ steps ih =>
    cases hfound : p.step? position m with
    | error e =>
      rw [visitsFrom_of_error hfound] at hvisit
      cases middle with
      | nil =>
        cases hvisit
        rwa [List.append_nil]
      | cons first middle => simp at hvisit
    | ok found =>
      cases found with
      | none =>
        rw [visitsFrom_of_end hfound] at hvisit
        simp at hvisit
      | some step =>
        rw [visitsFrom_of_step hfound] at hvisit
        cases middle with
        | nil =>
          rcases List.cons.inj hvisit with ⟨hfirst, -⟩
          rwa [List.append_nil, ← hfirst]
        | cons first middle =>
          rcases List.cons.inj hvisit with ⟨hfirst, hrest⟩
          have hnext := hstep before ⟨position, m⟩ step h hfound
          have hlater := ih hnext hrest
          rwa [hfirst, List.append_assoc] at hlater

theorem Preserves.runFrom (hstep : p.Preserves Inv) (h : Inv before ⟨position, m⟩)
    {output : Bytes} {m' : Machine} (hrun : p.runFrom steps position m = .ok (output, m')) :
    ∃ last, Inv (before ++ p.visitsFrom steps position m) ⟨last, m'⟩ := by
  induction steps generalizing before position m output with
  | zero =>
    rcases Except.ok.inj hrun with ⟨⟩
    exact ⟨position, by rwa [Program.visitsFrom, List.append_nil]⟩
  | succ steps ih =>
    cases hfound : p.step? position m with
    | error e =>
      rw [runFrom_of_error hfound] at hrun
      cases hrun
    | ok found =>
      cases found with
      | none =>
        rw [runFrom_of_end hfound] at hrun
        rcases Except.ok.inj hrun with ⟨⟩
        rw [visitsFrom_of_end hfound, List.append_nil]
        exact ⟨position, h⟩
      | some step =>
        rw [runFrom_of_step hfound, andThen_ok_eq_ok_iff] at hrun
        rcases hrun with ⟨more, hmore, -⟩
        have hnext := hstep before ⟨position, m⟩ step h hfound
        rcases ih hnext hmore with ⟨last, hlast⟩
        rw [visitsFrom_of_step hfound]
        rw [List.append_assoc] at hlast
        exact ⟨last, hlast⟩

/-- What holds at the start and is preserved holds at every visit of a run. -/
theorem Preserves.visits (hstep : p.Preserves Inv) (h : Inv [] ⟨0, m⟩)
    (hvisit : p.visits m = before ++ visit :: later) : Inv before visit :=
  hstep.visitsFrom h hvisit

theorem Preserves.run (hstep : p.Preserves Inv) (h : Inv [] ⟨0, m⟩) {output : Bytes}
    {m' : Machine} (hrun : p.run m = .ok (output, m')) : ∃ last, Inv (p.visits m) ⟨last, m'⟩ :=
  hstep.runFrom h hrun

end Invariant
end Template.Program
end TerminalCaps

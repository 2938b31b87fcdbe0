import TerminalCaps.Expansion.Session
import TerminalCaps.Proofs.Sequencing
import TerminalCaps.Proofs.Template.Jumps

/-! Runs of programs whose jumps lead forward, taken up at any place and one instruction at a time. -/
namespace TerminalCaps

namespace Expansion

/-- The bytes that were sent and the machine that is left. -/
abbrev Outcome := Except ExpansionError (Bytes × Machine)

/-- Goes on with the machine that is left, and sends the bytes of both. -/
def andThen (x : Outcome) (next : Machine → Outcome) : Outcome := do
  let (output, m) ← x
  let (more, m) ← next m
  return (output ++ more, m)

/-- Takes a number from the stack, and goes one way unless it is 0. -/
def branch (m : Machine) (onTrue onFalse : Machine → Outcome) : Outcome :=
  let (condition, stack) := m.stack.popNumber
  if condition = 0 then onFalse { m with stack } else onTrue { m with stack }

theorem andThen_ok_nil (m : Machine) (next : Machine → Outcome) :
    andThen (.ok ([], m)) next = next m := by
  change (next m >>= fun result => pure ([] ++ result.1, result.2)) = next m
  cases next m <;> rfl

theorem andThen_nothing (x : Outcome) : andThen x (fun m => .ok ([], m)) = x := by
  cases x with
  | error e => rfl
  | ok result =>
    obtain ⟨output, m⟩ := result
    change Except.ok (output ++ [], m) = _
    rw [List.append_nil]

theorem andThen_assoc (x : Outcome) (f g : Machine → Outcome) :
    andThen (andThen x f) g = andThen x fun m => andThen (f m) g := by
  cases x with
  | error e => rfl
  | ok result =>
    obtain ⟨output, m⟩ := result
    cases hf : f m with
    | error e => simp [andThen, hf, bind, Except.bind]
    | ok result' =>
      obtain ⟨output', m'⟩ := result'
      cases hg : g m' with
      | error e => simp [andThen, hf, hg, bind, Except.bind, pure, Except.pure]
      | ok result'' => simp [andThen, hf, hg, bind, Except.bind, pure, Except.pure]

theorem andThen_branch (m : Machine) (f g next : Machine → Outcome) :
    andThen (branch m f g) next =
      branch m (fun m => andThen (f m) next) (fun m => andThen (g m) next) := by
  unfold branch
  by_cases h : m.stack.popNumber.1 = 0
  · simp only [h, if_true]
  · simp only [h, if_false]

end Expansion

namespace Template
open Expansion Sequencing

namespace Program

variable {p : Program}

def Forward (p : Program) : Prop := ∀ (position : Nat) (instruction : Instruction) (target : Nat),
  p.instructions[position]? = some instruction → instruction.target? = some target →
    position < target

theorem forward_link {code : List Instruction} (h : Unlinked code) :
    Forward ⟨(link code).toArray⟩ := by
  intro position instruction target hget htarget
  rw [List.getElem?_toArray] at hget
  exact (link_places h hget htarget).1

/-- The rest of a run. -/
def resume (p : Program) (position : Nat) (m : Machine) : Outcome :=
  p.runFrom (p.size - position) position m

theorem step?_of_size_le {position : Nat} (h : p.size ≤ position) (m : Machine) :
    p.step? position m = .ok none := by
  rw [step?, Array.getElem?_eq_none h]

theorem lt_destination (hp : p.Forward) {position : Nat} {instruction : Instruction}
    (h : p.instructions[position]? = some instruction) :
    position < p.destination instruction.target? := by
  have hlt := (Array.getElem?_eq_some_iff.1 h).1
  unfold destination
  cases htarget : instruction.target? with
  | none => exact hlt
  | some target => exact hp position instruction target h htarget

/-- All that a step can do. -/
theorem step?_cases {position : Nat} {m : Machine} {step : Step}
    (h : p.step? position m = .ok (some step)) :
    ∃ instruction, p.instructions[position]? = some instruction ∧
      match instruction with
      | .operation op => ∃ result, m.perform op = .ok result ∧
          step = ⟨result.1, position + 1, result.2⟩
      | .ifStart | .ifEnd => step = ⟨[], position + 1, m⟩
      | .thenJump target => step = ⟨[],
          if m.stack.popNumber.1 = 0 then p.destination target else position + 1,
          { m with stack := m.stack.popNumber.2 }⟩
      | .elseJump target => step = ⟨[], p.destination target, m⟩ := by
  unfold step? at h
  cases hget : p.instructions[position]? with
  | none => simp [hget] at h
  | some instruction =>
    refine ⟨instruction, rfl, ?_⟩
    rw [hget] at h
    cases instruction with
    | operation op =>
      obtain ⟨result, hperform, hstep⟩ := bind_eq_ok_iff.1 h
      cases hstep
      exact ⟨result, hperform, rfl⟩
    | ifStart =>
      cases h
      rfl
    | ifEnd =>
      cases h
      rfl
    | thenJump target =>
      cases h
      rfl
    | elseJump target =>
      cases h
      rfl

theorem lt_position_of_step? (hp : p.Forward) {position : Nat} {m : Machine} {step : Step}
    (h : p.step? position m = .ok (some step)) : position < step.position := by
  obtain ⟨instruction, hget, hstep⟩ := step?_cases h
  have hlt := lt_destination hp hget
  have hnext := Nat.lt_succ_self position
  cases instruction with
  | operation op =>
    obtain ⟨result, -, rfl⟩ := hstep
    exact hnext
  | ifStart => exact hstep ▸ hnext
  | ifEnd => exact hstep ▸ hnext
  | thenJump target =>
    subst hstep
    by_cases hzero : m.stack.popNumber.1 = 0
    · simp only [hzero, if_true]
      exact hlt
    · simp only [hzero, if_false]
      exact hnext
  | elseJump target => exact hstep ▸ hlt

/-- A run ends on its own: more steps than there are instructions left change nothing. -/
theorem runFrom_congr (hp : p.Forward) {steps more position : Nat} (m : Machine)
    (hsteps : p.size - position ≤ steps) (hmore : p.size - position ≤ more) :
    p.runFrom steps position m = p.runFrom more position m := by
  induction steps generalizing more position m with
  | zero =>
    cases more with
    | zero => rfl
    | succ more => rw [runFrom, runFrom, step?_of_size_le (by omega)]; rfl
  | succ steps ih =>
    cases more with
    | zero => rw [runFrom, runFrom, step?_of_size_le (by omega)]; rfl
    | succ more =>
      rw [runFrom, runFrom]
      cases hstep : p.step? position m with
      | error e => rfl
      | ok step =>
        cases step with
        | none => rfl
        | some step =>
          have hlt := lt_position_of_step? hp hstep
          have hrest := @ih more step.position step.machine (by omega) (by omega)
          change (p.runFrom steps step.position step.machine >>= _) = _
          rw [hrest]
          rfl

theorem resume_of_step? (hp : p.Forward) {position : Nat} {m : Machine} {step : Step}
    (h : p.step? position m = .ok (some step)) :
    p.resume position m = andThen (.ok (step.output, step.machine)) (p.resume step.position) := by
  have hlt := lt_position_of_step? hp h
  have hsize : position < p.size := by
    rcases Nat.lt_or_ge position p.size with hsize | hsize
    · exact hsize
    · rw [step?_of_size_le hsize] at h
      cases h
  obtain ⟨steps, hsteps⟩ : ∃ steps, p.size - position = steps + 1 := ⟨p.size - position - 1, by omega⟩
  rw [resume, hsteps, runFrom, h]
  change (p.runFrom steps step.position step.machine >>= _) = _
  have hrest := @runFrom_congr p hp steps (p.size - step.position) step.position step.machine
    (by omega) (Nat.le_refl _)
  rw [hrest]
  rfl

theorem resume_of_size_le {position : Nat} (h : p.size ≤ position) :
    p.resume position = fun m => .ok ([], m) := by
  funext m
  rw [resume, Nat.sub_eq_zero_of_le h]
  rfl

section Instructions

variable {position : Nat} {target : Option Nat}

theorem resume_operation (hp : p.Forward) {op : Operation}
    (h : p.instructions[position]? = some (.operation op)) :
    p.resume position = fun m => andThen (m.perform op) (p.resume (position + 1)) := by
  funext m
  cases hperform : m.perform op with
  | error e =>
    have hsize := (Array.getElem?_eq_some_iff.1 h).1
    obtain ⟨steps, hsteps⟩ : ∃ steps, p.size - position = steps + 1 :=
      ⟨p.size - position - 1, by rw [size]; omega⟩
    rw [resume, hsteps, runFrom, step?, h]
    simp only [hperform]
    rfl
  | ok result =>
    have hstep : p.step? position m = .ok (some ⟨result.1, position + 1, result.2⟩) := by
      rw [step?, h]
      simp only [hperform]
      rfl
    exact resume_of_step? hp hstep

/-- A step without output only moves the run. -/
theorem resume_of_silent_step (hp : p.Forward) {m m' : Machine} {next : Nat}
    (h : p.step? position m = .ok (some ⟨[], next, m'⟩)) :
    p.resume position m = p.resume next m' := by
  rw [resume_of_step? hp h, andThen_ok_nil]

theorem resume_ifStart (hp : p.Forward) (h : p.instructions[position]? = some .ifStart) :
    p.resume position = p.resume (position + 1) := by
  funext m
  apply resume_of_silent_step hp
  rw [step?, h]

theorem resume_ifEnd (hp : p.Forward) (h : p.instructions[position]? = some .ifEnd) :
    p.resume position = p.resume (position + 1) := by
  funext m
  apply resume_of_silent_step hp
  rw [step?, h]

theorem resume_elseJump (hp : p.Forward)
    (h : p.instructions[position]? = some (.elseJump target)) :
    p.resume position = p.resume (p.destination target) := by
  funext m
  apply resume_of_silent_step hp
  rw [step?, h]

theorem resume_thenJump (hp : p.Forward)
    (h : p.instructions[position]? = some (.thenJump target)) :
    p.resume position = fun m =>
      branch m (p.resume (position + 1)) (p.resume (p.destination target)) := by
  funext m
  have hstep : p.step? position m = .ok (some ⟨[],
      if m.stack.popNumber.1 = 0 then p.destination target else position + 1,
      { m with stack := m.stack.popNumber.2 }⟩) := by
    rw [step?, h]
  rw [resume_of_silent_step hp hstep, branch]
  by_cases hzero : m.stack.popNumber.1 = 0
  · simp only [hzero, if_true]
  · simp only [hzero, if_false]

end Instructions

end Program
end Template
end TerminalCaps

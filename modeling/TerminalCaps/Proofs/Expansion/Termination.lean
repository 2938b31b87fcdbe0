import TerminalCaps.Proofs.Expansion.Visits
import TerminalCaps.Proofs.Template.Scanning

/-!
Runs as loops with no bound on their turns. Jumps lead forward, so the places of a run grow, no
instruction is executed twice, and the loop ends within as many steps as there are instructions.
-/
namespace TerminalCaps

namespace Template.Program
open Expansion

/-- A whole run from a visit, step by step: the instructions that it executes, each at its visit,
and what comes of them. It ends where there is no instruction, or with a step that fails. -/
inductive Executes (p : Program) : Visit → List Visit → Outcome → Prop
  | ended {v : Visit} (h : p.step? v.position v.machine = .ok none) :
      Executes p v [] (.ok ([], v.machine))
  | failed {v : Visit} {error : ExpansionError} (h : p.step? v.position v.machine = .error error) :
      Executes p v [v] (.error error)
  | step {v : Visit} {step : Step} {visits : List Visit} {outcome : Outcome}
      (h : p.step? v.position v.machine = .ok (some step))
      (hrest : Executes p ⟨step.position, step.machine⟩ visits outcome) :
      Executes p v (v :: visits) (andThen (.ok (step.output, step.machine)) fun _ => outcome)

variable {p : Program} {v : Visit} {visits : List Visit} {outcome : Outcome}

theorem position_lt_of_step? (h : p.step? v.position v.machine ≠ .ok none) :
    v.position < p.size := by
  by_contra hplace
  exact h (step?_of_size_le (Nat.not_lt.1 hplace) v.machine)

/-- Enough steps make up the whole run. -/
theorem executes_visitsFrom (hp : p.Forward) {steps : Nat} (hsteps : p.size - v.position ≤ steps) :
    p.Executes v (p.visitsFrom steps v.position v.machine)
      (p.runFrom steps v.position v.machine) := by
  induction steps generalizing v with
  | zero => exact .ended (step?_of_size_le (by omega) v.machine)
  | succ steps ih =>
    cases hfound : p.step? v.position v.machine with
    | error e =>
      rw [visitsFrom_of_error hfound, runFrom_of_error hfound]
      exact .failed hfound
    | ok found =>
      cases found with
      | none =>
        rw [visitsFrom_of_end hfound, runFrom_of_end hfound]
        exact .ended hfound
      | some step =>
        have hlt := lt_position_of_step? hp hfound
        have hrest := @ih ⟨step.position, step.machine⟩ (by dsimp only; omega)
        rw [visitsFrom_of_step hfound, runFrom_of_step hfound]
        exact .step hfound hrest

/-- There is no other run: every turn of the loop is determined by the one before. -/
theorem Executes.unique {others : List Visit} {other : Outcome} (h : p.Executes v visits outcome)
    (hother : p.Executes v others other) : others = visits ∧ other = outcome := by
  induction h generalizing others other with
  | ended h => cases hother <;> simp_all
  | failed h => cases hother <;> simp_all
  | step h _ ih =>
    cases hother with
    | ended h' => simp_all
    | failed h' => simp_all
    | step h' hrest =>
      obtain rfl : _ = _ := by simpa [h] using h'
      obtain ⟨rfl, rfl⟩ := ih hrest
      simp

theorem executes_iff (hp : p.Forward) {m : Machine} :
    p.Executes ⟨0, m⟩ visits outcome ↔ visits = p.visits m ∧ outcome = p.run m := by
  have hrun : p.Executes ⟨0, m⟩ (p.visits m) (p.run m) :=
    executes_visitsFrom hp (Nat.sub_le p.size 0)
  constructor
  · exact fun h => hrun.unique h
  · intro h
    obtain ⟨rfl, rfl⟩ := h
    exact hrun

/-- The places of a run grow, and stay inside of the program, so they are not more than it has. -/
theorem Executes.forward (hp : p.Forward) (h : p.Executes v visits outcome) :
    (∀ visit ∈ visits, v.position ≤ visit.position ∧ visit.position < p.size) ∧
      visits.Pairwise (fun a b => a.position < b.position) ∧
      visits.length ≤ p.size - v.position := by
  induction h with
  | ended _ => simp
  | @failed v error h =>
    have hlt : v.position < p.size := position_lt_of_step? (by simp [h])
    refine ⟨by simpa using hlt, by simp, ?_⟩
    simp only [List.length_singleton]
    omega
  | @step v step visits outcome h _ ih =>
    obtain ⟨hplaces, hpairwise, hcount⟩ := ih
    have hlt : v.position < p.size := position_lt_of_step? (by simp [h])
    have hnext := lt_position_of_step? hp h
    refine ⟨?_, ?_, ?_⟩
    · refine List.forall_mem_cons.2 ⟨⟨Nat.le_refl _, hlt⟩, ?_⟩
      intro visit hvisit
      exact ⟨Nat.le_trans (Nat.le_of_lt hnext) (hplaces visit hvisit).1, (hplaces visit hvisit).2⟩
    · refine List.pairwise_cons.2 ⟨?_, hpairwise⟩
      exact fun visit hvisit => Nat.lt_of_lt_of_le hnext (hplaces visit hvisit).1
    · dsimp only at hcount
      simp only [List.length_cons]
      omega

theorem size_compile_le (template : Bytes) : (compile template).size ≤ template.length := by
  show (link (readInstructions template)).toArray.size ≤ template.length
  simpa using length_readInstructions_le template

end Template.Program

namespace Expansion
open Template

/-- Every expansion ends, and so does the reading of its template. The loop over the instructions
has one run, which goes to a later place with every step and along every jump, and has no more steps
than the template has bytes. The loop that reads the template uses up bytes with every turn. -/
theorem Session.expand_goes_forward (s : Session) (template : Bytes) (parameters : List Parameter) :
    let p := Program.compile template
    let m := Machine.start s.statics parameters
    (∀ visits outcome,
      p.Executes ⟨0, m⟩ visits outcome ↔ visits = p.visits m ∧ outcome = p.run m) ∧
    s.expand template parameters = (p.run m).map (fun result => (result.1, ⟨result.2.statics⟩)) ∧
    (p.visits m).Pairwise (fun a b => a.position < b.position) ∧
    (∀ visit ∈ p.visits m, ∀ step, p.step? visit.position visit.machine = .ok (some step) →
      visit.position < step.position) ∧
    (∀ (position : Nat) (instruction : Instruction) (target : Nat),
      p.instructions[position]? = some instruction → instruction.target? = some target →
        position < target) ∧
    (∀ visit ∈ p.visits m, visit.position < p.size) ∧
    (p.visits m).length ≤ p.size ∧ p.size ≤ template.length ∧
    ∃ lefts, (∀ lefts' code,
        Scans template lefts' code ↔ lefts' = lefts ∧ code = readInstructions template) ∧
      (∀ left ∈ lefts, left <:+ template) ∧
      lefts.Pairwise (fun a b => b.length < a.length) ∧
      lefts.length ≤ template.length + 1 := by
  intro p m
  have hforward : p.Forward := Program.forward_link (unlinked_readInstructions template)
  obtain ⟨hplaces, hpairwise, hcount⟩ :=
    ((Program.executes_iff hforward).2 ⟨rfl, rfl⟩ : p.Executes ⟨0, m⟩ _ _).forward hforward
  obtain ⟨lefts, hlefts⟩ := exists_scan template
  have hscan := ((hlefts lefts _).2 ⟨rfl, rfl⟩).forward
  refine ⟨fun _ _ => Program.executes_iff hforward, ?_, hpairwise, ?_, hforward, ?_, hcount,
    Program.size_compile_le template, lefts, hlefts, hscan⟩
  · change (p.run m >>= _) = _
    cases p.run m <;> rfl
  · exact fun _ _ _ hstep => Program.lt_position_of_step? hforward hstep
  · exact fun visit hvisit => (hplaces visit hvisit).2

end Expansion
end TerminalCaps

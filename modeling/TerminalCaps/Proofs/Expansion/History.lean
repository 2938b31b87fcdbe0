import TerminalCaps.Proofs.Expansion.Visits

/-!
The history of a session. What a `%g` puts on the stack is the value stored last in the life of its
variable: the session since it was reset, or the one run.
-/
namespace TerminalCaps
namespace Expansion
open Template

/-- What gives values to variables. -/
inductive Event where
  | reset
  /-- A run begins. -/
  | started
  | stored (target : Variable) (value : Operand)
  deriving DecidableEq, Repr

/-- The value that an event gives to a variable, if it does. -/
def Event.value? : Event → Variable → Option Operand
  | .reset, .static _ | .started, .dynamic _ => some .zero
  | .reset, .dynamic _ | .started, .static _ => none
  | .stored target value, v => if target = v then some value else none

/-- The value given last by the events of a log, whose newest one comes last. -/
def lastGiven (v : Variable) (log : List Event) : Operand :=
  (log.reverse.findSome? (·.value? v)).getD .zero

theorem lastGiven_concat (v : Variable) (log : List Event) (event : Event) :
    lastGiven v (log ++ [event]) = (event.value? v).getD (lastGiven v log) := by
  unfold lastGiven
  rw [List.reverse_append]
  cases hvalue : event.value? v with
  | none => simp [hvalue]
  | some value => simp [hvalue]

end Expansion

namespace Template.Program
open Expansion

variable {p : Program} {log : List Event}

def stored? (p : Program) (visit : Visit) : Option Event :=
  match p.operationAt? visit with
  | some (.store target) => some (.stored target visit.machine.storedValue)
  | _ => none

/-- What a run has stored in its visits. -/
def stores (p : Program) (visits : List Visit) : List Event := visits.filterMap p.stored?

theorem lastGiven_append_stored? (visit : Visit) (v : Variable) :
    lastGiven v (log ++ (p.stored? visit).toList) =
      if p.operationAt? visit = some (.store v) then visit.machine.storedValue
      else lastGiven v log := by
  unfold stored?
  cases p.operationAt? visit with
  | none => simp
  | some op =>
    cases op with
    | store target =>
      show lastGiven v (log ++ [_]) = _
      rw [lastGiven_concat]
      simp only [Event.value?, Option.some.injEq, Operation.store.injEq]
      split <;> rfl
    | _ => simp

/-- Every variable holds what the log says. -/
def Recalls (log : List Event) (m : Machine) : Prop := ∀ v, m.get v = lastGiven v log

theorem recalls_start {statics : Variables}
    (h : ∀ letter, statics.get letter = lastGiven (.static letter) log)
    (parameters : List Parameter) :
    Recalls (log ++ [.started] ++ p.stores []) (.start statics parameters) := by
  intro v
  show _ = lastGiven v (log ++ [.started] ++ [])
  rw [List.append_nil, lastGiven_concat]
  cases v with
  | static letter => exact h letter
  | dynamic letter =>
    show (Variables.initial)[letter.val] = _
    exact Vector.getElem_replicate ..

theorem preserves_recalls : p.Preserves fun before visit =>
    Recalls (log ++ p.stores before) visit.machine := by
  intro before visit step hvisit hstep v
  have hstores : p.stores (before ++ [visit]) = p.stores before ++ (p.stored? visit).toList := by
    unfold stores
    rw [List.filterMap_append]
    cases h : p.stored? visit <;> simp [h]
  rw [hstores, ← List.append_assoc, lastGiven_append_stored?, ← hvisit v]
  exact get_of_step? hstep v

/-- Every operand on the stack was put there in the run. -/
theorem preserves_pushed : p.Preserves fun before visit =>
    ∀ operand ∈ visit.machine.stack.operands, ∃ earlier ∈ before, ∃ op,
      p.operationAt? earlier = some op ∧ earlier.machine.pushed? op = some operand := by
  intro before visit step hvisit hstep operand hoperand
  have hearlier : operand ∈ visit.machine.stack.operands → ∃ earlier ∈ before ++ [visit], ∃ op,
      p.operationAt? earlier = some op ∧ earlier.machine.pushed? op = some operand := by
    intro hold
    rcases hvisit operand hold with ⟨earlier, hearlier, hpushed⟩
    exact ⟨earlier, List.mem_append_left _ hearlier, hpushed⟩
  rcases machine_of_step? hstep with ⟨op, hop, hmachine⟩ | ⟨-, count, hmachine⟩
  · rw [hmachine] at hoperand
    rcases Machine.mem_stack_after hoperand with hpushed | hold
    · exact ⟨visit, List.mem_append_right _ List.mem_cons_self, op, hop, hpushed⟩
    · exact hearlier hold
  · rw [hmachine] at hoperand
    apply hearlier
    rw [Stack.operands_discard] at hoperand
    exact List.mem_of_mem_drop hoperand

theorem step?_load {visit : Visit} {source : Variable}
    (h : p.operationAt? visit = some (.load source)) : p.step? visit.position visit.machine =
      .ok (some ⟨[], visit.position + 1, visit.machine.push (visit.machine.get source)⟩) := by
  rw [step?_of_operation (operationAt?_eq_some_iff.1 h)]
  rfl

end Template.Program

namespace Expansion
open Template Program Sequencing

/-- What can be done with a session. -/
inductive Action where
  | expand (template : Bytes) (parameters : List Parameter)
  | reset
  deriving DecidableEq, Repr

namespace Session

/-- The session after an action, unless its expansion fails. -/
def act (s : Session) : Action → Except ExpansionError Session
  | .expand template parameters => do
    let (_, s) ← s.expand template parameters
    return s
  | .reset => .ok s.reset

/-- The events of an action. -/
def events (s : Session) : Action → List Event
  | .expand template parameters =>
    let p := Program.compile template
    .started :: p.stores (p.visits (.start s.statics parameters))
  | .reset => [.reset]

/-- The session after a list of actions, and the log of all its events. -/
def live (s : Session) (log : List Event) :
    List Action → Except ExpansionError (Session × List Event)
  | [] => .ok (s, log)
  | action :: actions => do
    let next ← s.act action
    next.live (log ++ s.events action) actions

/-- The static variables hold what the log of the session says. -/
def Remembers (s : Session) (log : List Event) : Prop :=
  ∀ letter, s.statics.get letter = lastGiven (.static letter) log

variable {s s' : Session} {log log' : List Event}

theorem Remembers.act {action : Action} (h : s.Remembers log) (hact : s.act action = .ok s') :
    s'.Remembers (log ++ s.events action) := by
  cases action with
  | expand template parameters =>
    rcases bind_eq_ok_iff.1 hact with ⟨result, hexpand, hresult⟩
    rcases bind_eq_ok_iff.1 hexpand with ⟨ended, hrun, hended⟩
    cases hended
    cases hresult
    -- What the run has stored is the rest of the log, and holds of the machine that it leaves.
    rcases preserves_recalls.run (recalls_start h parameters) hrun with ⟨last, hlast⟩
    intro letter
    rw [events, List.append_cons]
    exact hlast (.static letter)
  | reset =>
    cases hact
    intro letter
    show _ = lastGiven _ (log ++ [.reset])
    rw [lastGiven_concat]
    exact Vector.getElem_replicate ..

theorem Remembers.live {actions : List Action} (h : s.Remembers log)
    (hlive : s.live log actions = .ok (s', log')) : s'.Remembers log' := by
  induction actions generalizing s log with
  | nil =>
    cases hlive
    exact h
  | cons action actions ih =>
    rw [Session.live] at hlive
    cases hact : s.act action with
    | error e =>
      rw [hact] at hlive
      cases hlive
    | ok next =>
      rw [hact] at hlive
      exact ih (h.act hact) hlive

theorem remembers_initial : initial.Remembers [] := by
  intro letter
  exact Vector.getElem_replicate ..

/-- In a run at any time in the life of a session, a variable has the value that was stored last:
since the session was reset if it is static, or else since the run began. What is on the stack was
put there in the same run. -/
theorem load_recalls (actions : List Action) (s : Session) (log : List Event)
    (h : initial.live [] actions = .ok (s, log)) (template : Bytes) (parameters : List Parameter) :
    let p := Program.compile template
    ∀ before visit later, p.visits (.start s.statics parameters) = before ++ visit :: later →
      (∀ source, p.operationAt? visit = some (.load source) →
        p.step? visit.position visit.machine = .ok (some ⟨[], visit.position + 1,
          visit.machine.push (lastGiven source (log ++ [.started] ++ p.stores before))⟩)) ∧
      ∀ operand ∈ visit.machine.stack.operands, ∃ earlier ∈ before, ∃ op,
        p.operationAt? earlier = some op ∧ earlier.machine.pushed? op = some operand := by
  intro p before visit later hvisit
  have hrecalls := preserves_recalls.visits
    (recalls_start (remembers_initial.live h) parameters) hvisit
  refine ⟨?_, preserves_pushed.visits (List.forall_mem_nil _) hvisit⟩
  intro source hsource
  rw [step?_load hsource, hrecalls source]

/-- Stores a number, resets the session, and then stores a text and, from an empty stack, the empty
text. A number is left on the stack. -/
def busyLife : List Action :=
  [.expand (Bytes.ofAscii "%\x7b5\x7d%PA%\x7b9\x7d%Pa") [], .reset,
    .expand (Bytes.ofAscii "%p1%PB%PC%\x7b8\x7d%\x7b7\x7d%Pa") [.string (Bytes.ofAscii "bold")]]

theorem load_recalls_busyLife :
    let s : Session :=
      ⟨(Variables.initial.set 1 (.string (Bytes.ofAscii "bold"))).set 2 (.string [])⟩
    let p := Program.compile (Bytes.ofAscii "%gB%ga")
    let first := Machine.start s.statics []
    let second := first.push (.string (Bytes.ofAscii "bold"))
    p.step? 0 first = .ok (some ⟨[], 1, second⟩) ∧
    p.step? 1 second = .ok (some ⟨[], 2, second.push .zero⟩) ∧
    ∀ operand ∈ second.stack.operands, ∃ op, p.operationAt? ⟨0, first⟩ = some op ∧
      first.pushed? op = some operand := by
  intro s p first second
  let log : List Event :=
    [.started, .stored (.static 0) (.number 5), .stored (.dynamic 0) (.number 9), .reset, .started,
      .stored (.static 1) (.string (Bytes.ofAscii "bold")), .stored (.static 2) (.string []),
      .stored (.dynamic 0) (.number 7)]
  have hlive : initial.live [] busyLife = .ok (s, log) := by decide +kernel
  have hvisits : p.visits first = [⟨0, first⟩, ⟨1, second⟩] := by decide +kernel
  have hfirst := load_recalls busyLife s log hlive _ [] [] ⟨0, first⟩ _ hvisits
  have hsecond := load_recalls busyLife s log hlive _ [] [⟨0, first⟩] ⟨1, second⟩ _ hvisits
  refine ⟨?_, ?_, ?_⟩
  · have htext : lastGiven (.static 1) (log ++ [.started] ++ p.stores []) =
        .string (Bytes.ofAscii "bold") := by
      decide +kernel
    rw [hfirst.1 (.static 1) (by decide +kernel), htext]
  · have hzero : lastGiven (.dynamic 0) (log ++ [.started] ++ p.stores [⟨0, first⟩]) = .zero := by
      decide +kernel
    rw [hsecond.1 (.dynamic 0) (by decide +kernel), hzero]
  · intro operand hoperand
    rcases hsecond.2 operand hoperand with ⟨earlier, hearlier, hpushed⟩
    cases List.mem_singleton.1 hearlier
    exact hpushed

end Session
end Expansion
end TerminalCaps

import TerminalCaps.Proofs.Expansion.Fields
import TerminalCaps.Proofs.Expansion.Visits

/-!
The one way in which an expansion fails: a decimal number with a sign, written with the greatest
precision that a template can ask for. Every other run has an output.
-/
namespace TerminalCaps
namespace Template
open Expansion Sequencing

namespace Operation

/-- The operation writes a signed decimal number with the greatest precision. -/
def Overruns (stack : Stack) : Operation → Prop
  | .field .decimal spec => spec.precision = some 65535 ∧
      (spec.plus ∨ (stack.operands.head?.getD .zero).toNumber < 0)
  | _ => False

instance (stack : Stack) : (op : Operation) → Decidable (op.Overruns stack)
  | .field .decimal _ => inferInstanceAs (Decidable (_ ∧ _))
  | .field .octal _ | .field .hex _ | .field .capitalHex _ | .field .string _ | .literal _
  | .percent | .increment | .character | .pushParameter _ | .pushNumber _ | .pushCharacter _
  | .store _ | .load _ | .length | .binary _ | .unary _ => inferInstanceAs (Decidable False)

theorem written_eq_error_iff {stack : Stack} {op : Operation} {error : ExpansionError} :
    op.written stack = .error error ↔ op.Overruns stack := by
  cases op with
  | field conversion spec =>
    show spec.write conversion _ = _ ↔ _
    rw [write_eq_error_iff]
    cases conversion with
    | decimal =>
      constructor
      · rintro ⟨-, hprecision, hsign⟩
        exact ⟨hprecision, hsign.symm⟩
      · rintro ⟨hprecision, hsign⟩
        exact ⟨rfl, hprecision, hsign.symm⟩
    | _ => simp [Overruns]
  | _ => simp [written, Overruns]

end Operation

namespace Program

variable {p : Program} {visit : Visit}

/-- A visit performs an operation that overruns. -/
def Overruns (p : Program) (visit : Visit) : Prop :=
  ∃ op ∈ p.operationAt? visit, op.Overruns visit.machine.stack

instance (p : Program) (visit : Visit) : Decidable (p.Overruns visit) :=
  inferInstanceAs (Decidable (∃ op ∈ p.operationAt? visit, op.Overruns visit.machine.stack))

theorem step?_eq_error_iff {error : ExpansionError} :
    p.step? visit.position visit.machine = .error error ↔ p.Overruns visit := by
  unfold Overruns
  cases hop : p.operationAt? visit with
  | none =>
    have hnot : ∀ op, p.instructions[visit.position]? ≠ some (.operation op) := by
      intro op hget
      rw [operationAt?_eq_some_iff.2 hget] at hop
      cases hop
    simp only [Option.not_mem_none, false_and, exists_false, iff_false]
    -- No other instruction writes anything, so none of them can fail.
    intro h
    unfold step? at h
    split at h
    · cases h
    · next op hget => exact hnot op hget
    all_goals cases h
  | some op =>
    rw [step?_of_operation (operationAt?_eq_some_iff.1 hop)]
    have hmap : ∀ x : Except ExpansionError Bytes, ∀ f : Bytes → Option Step,
        x.map f = .error error ↔ x = .error error := by
      intro x f
      cases x <;> simp [Except.map]
    rw [hmap, Operation.written_eq_error_iff]
    simp only [Option.mem_some_iff, exists_eq_left']

/-- A run comes only to places of the program. -/
theorem position_lt_of_mem_visitsFrom {steps position : Nat} {m : Machine} :
    ∀ visit ∈ p.visitsFrom steps position m, visit.position < p.size := by
  induction steps generalizing position m with
  | zero => exact List.forall_mem_nil _
  | succ steps ih =>
    have hposition : p.step? position m ≠ .ok none → position < p.size := by
      intro hstep
      by_contra hplace
      exact hstep (step?_of_size_le (Nat.not_lt.1 hplace) m)
    cases hfound : p.step? position m with
    | error e =>
      rw [visitsFrom_of_error hfound]
      refine List.forall_mem_singleton.2 (hposition ?_)
      rw [hfound]
      exact fun h => nomatch h
    | ok found =>
      cases found with
      | none =>
        rw [visitsFrom_of_end hfound]
        exact List.forall_mem_nil _
      | some step =>
        rw [visitsFrom_of_step hfound]
        refine List.forall_mem_cons.2 ⟨hposition ?_, ih⟩
        rw [hfound]
        exact fun h => nomatch h

/-- A run fails exactly if one of its visits overruns, which is the only failure there is. -/
theorem run_eq_error_iff {m : Machine} {error : ExpansionError} :
    p.run m = .error error ↔ ∃ visit ∈ p.visits m, p.Overruns visit := by
  rw [run, runFrom_eq_error_iff]
  simp only [step?_eq_error_iff]
  rfl

theorem target_le_of_mem_compile {template : Bytes} :
    ∀ instruction ∈ (compile template).instructions, ∀ target,
      instruction.target? = some target → target ≤ (compile template).size := by
  intro instruction hinstruction target htarget
  obtain ⟨position, hget⟩ := List.getElem?_of_mem (List.mem_toArray.1 hinstruction)
  have hle := (link_places (unlinked_readInstructions template) hget htarget).2
  show target ≤ (link (readInstructions template)).toArray.size
  rwa [List.size_toArray, length_link]

end Program
end Template

namespace Expansion
open Template

theorem exists_ok_iff {x : Except ExpansionError (Bytes × Session)} :
    (∃ output s, x = .ok (output, s)) ↔ ¬ ∃ error, x = .error error := by
  cases x with
  | error e =>
    constructor
    · intro h
      rcases h with ⟨output, s, h⟩
      cases h
    · intro h
      exact absurd ⟨e, rfl⟩ h
  | ok result =>
    constructor
    · intro _ h
      rcases h with ⟨error, h⟩
      cases h
    · intro _
      exact ⟨result.1, result.2, rfl⟩

theorem Session.expand_eq_error_iff {s : Session} {template : Bytes} {parameters : List Parameter}
    {error : ExpansionError} : s.expand template parameters = .error error ↔
      ∃ visit ∈ (Program.compile template).visits (.start s.statics parameters),
        (Program.compile template).Overruns visit := by
  rw [← @Program.run_eq_error_iff _ _ error]
  show ((Program.compile template).run (.start s.statics parameters) >>= _) = _ ↔ _
  cases (Program.compile template).run (.start s.statics parameters) <;>
    simp [bind, Except.bind, pure, Except.pure]

/-- An expansion fails exactly if it writes a signed decimal number with the greatest precision, and
has an output otherwise: that of the whole run, which more steps would not change. Nothing else is
out of range in any run: not the places that it comes to or that its jumps lead to, not what an
escape leaves of the template, and not the place where the zeros go into the text of a number or how
many of them there are. -/
theorem Session.expand_fails_iff (s : Session) (template : Bytes) (parameters : List Parameter) :
    let p := Program.compile template
    let m := Machine.start s.statics parameters
    ((∃ error, s.expand template parameters = .error error) ↔
      ∃ visit ∈ p.visits m, p.Overruns visit) ∧
    ((∃ output s', s.expand template parameters = .ok (output, s')) ↔
      ¬ ∃ visit ∈ p.visits m, p.Overruns visit) ∧
    (∀ steps, p.size ≤ steps → p.runFrom steps 0 m = p.run m) ∧
    (∀ visit ∈ p.visits m, visit.position < p.size) ∧
    (∀ instruction ∈ p.instructions, ∀ target,
      instruction.target? = some target → target ≤ p.size) ∧
    (∀ bytes, (readEscape bytes).2 <:+ bytes) ∧
    (∀ spec conversion (operand : Operand) n text,
      numeral? spec operand.toNumber conversion = some n →
        spec.write conversion operand = .ok text →
        Numeral.digitsStart (n.mark ++ n.body) ≤ (n.mark ++ n.body).length ∧
        text = (Numeral.ofText (n.mark ++ n.body)).pad spec.width.toNat spec.left
          (spec.zero && spec.precision.isNone) ∧
        text.length = max spec.width.toNat (n.mark ++ n.body).length) := by
  intro p m
  have hforward : p.Forward := Program.forward_link (unlinked_readInstructions template)
  have hfails : (∃ error, s.expand template parameters = .error error) ↔
      ∃ visit ∈ p.visits m, p.Overruns visit := by
    constructor
    · intro h
      rcases h with ⟨error, herror⟩
      exact expand_eq_error_iff.1 herror
    · intro h
      exact ⟨.numberTooWide, expand_eq_error_iff.2 h⟩
  refine ⟨hfails, ?_, ?_, Program.position_lt_of_mem_visitsFrom,
    Program.target_le_of_mem_compile, readEscape_suffix, ?_⟩
  · rw [← hfails]
    exact exists_ok_iff
  · intro steps hsteps
    exact Program.runFrom_congr hforward m hsteps (Nat.sub_le p.size 0)
  · intro spec conversion operand n text hn htext
    have hpad := write_eq_pad_ofText hn htext
    refine ⟨Numeral.digitsStart_le _, hpad, ?_⟩
    rw [hpad, ofText_of_numeral? hn, Numeral.length_pad]

/-- A negative number overruns, and 0 leads to a field that is filled with zeros. -/
def tooWide : Bytes := Bytes.ofAscii "%?%p1%t%p1%.70000d%e%\x7b10\x7d%:#06x%;"

theorem Session.expand_fails_tooWide :
    (∃ error, Session.initial.expand tooWide [.number (-5)] = .error error) ∧
    (∃ output s', Session.initial.expand tooWide [.number 0] = .ok (output, s')) ∧
    (Program.compile tooWide).runFrom 12 0 (.start Variables.initial [.number 0]) =
      (Program.compile tooWide).run (.start Variables.initial [.number 0]) ∧
    (∀ visit ∈ (Program.compile tooWide).visits (.start Variables.initial [.number 0]),
      visit.position < 9) ∧
    (∀ instruction ∈ (Program.compile tooWide).instructions, ∀ target,
      instruction.target? = some target → target ≤ 9) ∧
    Bytes.ofAscii "0x000a" = (Numeral.ofText (Bytes.ofAscii "0xa")).pad 6 false true := by
  have hsize : (Program.compile tooWide).size = 9 := by decide +kernel
  rcases expand_fails_iff .initial tooWide [.number (-5)] with ⟨hfails, -⟩
  rcases expand_fails_iff .initial tooWide [.number 0] with
    ⟨-, hruns, hsteps, hvisits, hjumps, -, hdigits⟩
  refine ⟨hfails.2 (by decide +kernel), hruns.2 (by decide +kernel), hsteps 12 (by omega), ?_, ?_,
    ?_⟩
  · intro visit hvisit
    have hlt := hvisits visit hvisit
    omega
  · rw [hsize] at hjumps
    exact hjumps
  · exact (hdigits ⟨6, none, true, false, false, false, true⟩ .hex (.number 10)
      ⟨Bytes.ofAscii "0x", Bytes.ofAscii "a"⟩ _ (by decide +kernel) (by decide +kernel)).2.1

end Expansion
end TerminalCaps

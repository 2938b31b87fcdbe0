import TerminalCaps.Proofs.Expansion.Resumption
import TerminalCaps.Proofs.Template.Levels

/-!
Walking over a template. A walk needs no targets: when a condition is false, or a taken branch ends,
it passes over the instructions and counts `%?` and `%;` until it finds the place to go on. A run of
the linked instructions does the same, unless a later `%t` has claimed the place of an earlier one.
-/
namespace TerminalCaps
namespace Expansion
open Template

/-- What a walk does with instructions: it performs them, or it passes over them up to the `%;` of a
level, or a `%e` of it if `toElse` is set; `depth` conditionals are open inside of the level. -/
inductive Pace where
  | performing
  | passing (toElse : Bool) (depth : Nat)
  deriving DecidableEq, Repr

/-- What the walk over some instructions sends, and the machine that it leaves. -/
def walk : List Instruction → Pace → Machine → Outcome
  | [], _ => fun m => .ok ([], m)
  | .operation op :: rest, .performing => fun m => andThen (m.perform op) (walk rest .performing)
  | .ifStart :: rest, .performing => walk rest .performing
  | .thenJump _ :: rest, .performing => fun m =>
    branch m (walk rest .performing) (walk rest (.passing true 0))
  | .elseJump _ :: rest, .performing => walk rest (.passing false 0)
  | .ifEnd :: rest, .performing => walk rest .performing
  | .ifStart :: rest, .passing toElse depth => walk rest (.passing toElse (depth + 1))
  | .elseJump _ :: rest, .passing true 0 => walk rest .performing
  | .ifEnd :: rest, .passing _ 0 => walk rest .performing
  | .ifEnd :: rest, .passing toElse (depth + 1) => walk rest (.passing toElse depth)
  | _ :: rest, .passing toElse depth => walk rest (.passing toElse depth)

/-- As `expand`, by a walk over the instructions of the template. -/
def Session.walk (s : Session) (template : Bytes) (parameters : List Parameter) :
    Except ExpansionError (Bytes × Session) := do
  let (output, m) ← Expansion.walk (readInstructions template) .performing
    (.start s.statics parameters)
  return (output, ⟨m.statics⟩)

theorem walk_of_not_endsAhead {depth : Nat} {code : List Instruction}
    (h : ¬ EndsAhead depth code) : walk code (.passing true depth) = fun m => .ok ([], m) := by
  unfold EndsAhead at h
  induction code generalizing depth with
  | nil => rfl
  | cons instruction code ih =>
    cases instruction with
    | operation op =>
      cases depth with
      | zero => exact ih (by simpa [sameLevel, Instruction.endsBody] using h)
      | succ depth => exact ih h
    | ifStart => exact ih h
    | thenJump raw =>
      cases depth with
      | zero => exact ih (by simpa [sameLevel, Instruction.endsBody] using h)
      | succ depth => exact ih h
    | elseJump raw =>
      cases depth with
      | zero => simp [sameLevel, Instruction.endsBody] at h
      | succ depth => exact ih h
    | ifEnd =>
      cases depth with
      | zero => simp [sameLevel, Instruction.endsBody] at h
      | succ depth => exact ih h

end Expansion

namespace Template
open Expansion Program

/-- No `%t` claims the place where a false condition before an earlier one goes on. -/
def Undisputed (code : List Instruction) : Prop :=
  ∀ before raw rest, code = before ++ .thenJump raw :: rest → EndsAhead 0 rest → ¬ ThenAhead 0 rest

theorem undisputed_nil : Undisputed [] := by
  intro before raw rest h
  simp at h

theorem undisputed_cons {instruction : Instruction} {code : List Instruction} :
    Undisputed (instruction :: code) ↔
      (instruction.isThen → EndsAhead 0 code → ¬ ThenAhead 0 code) ∧ Undisputed code := by
  constructor
  · intro h
    refine ⟨?_, fun before raw rest hcode => h (instruction :: before) raw rest (congrArg _ hcode)⟩
    intro hthen
    cases instruction with
    | thenJump raw => exact h [] raw code rfl
    | _ => cases hthen
  · intro h before raw rest hcode
    cases before with
    | nil =>
      cases hcode
      exact h.1 rfl
    | cons first before =>
      cases hcode
      exact h.2 before raw rest rfl

instance : (code : List Instruction) → Decidable (Undisputed code)
  | [] => isTrue undisputed_nil
  | _ :: code =>
    have := instDecidableUndisputed code
    decidable_of_iff _ undisputed_cons.symm

section Linked

variable {code rest : List Instruction} {position : Nat}

/-- The rest of a run of linked instructions. -/
abbrev resumeLinked (code : List Instruction) : Nat → Machine → Outcome :=
  Program.resume ⟨(link code).toArray⟩

/-- From some place on, a walk goes where the linked instructions go. -/
structure WalksAsLinked (code : List Instruction) (position : Nat) (rest : List Instruction) :
    Prop where
  performing : walk rest .performing = resumeLinked code position
  toEnd : ∀ depth, walk rest (.passing false depth) =
    resumeLinked code (levelAt code.length position depth rest).exit
  toElse : ∀ depth target, (levelAt code.length position depth rest).onFalse = some target →
    walk rest (.passing true depth) = resumeLinked code target

theorem resumeLinked_size (code : List Instruction) :
    resumeLinked code code.length = fun m => .ok ([], m) := by
  have hsize : Program.size ⟨(link code).toArray⟩ = code.length := by
    rw [Program.size, List.size_toArray, length_link]
  exact resume_of_size_le (Nat.le_of_eq hsize)

namespace WalksAsLinked

theorem nil (code : List Instruction) : WalksAsLinked code code.length [] := by
  have hnothing := resumeLinked_size code
  refine ⟨hnothing.symm, fun depth => hnothing.symm, ?_⟩
  intro depth target htarget
  cases htarget
  exact hnothing.symm

/-- Instructions that are no part of a conditional are passed over. -/
theorem operation (hraw : Unlinked code) {op : Operation}
    (hget : (link code).toArray[position]? = some (.operation op))
    (h : WalksAsLinked code (position + 1) rest) :
    WalksAsLinked code position (.operation op :: rest) := by
  refine ⟨?_, h.toEnd, h.toElse⟩
  rw [resumeLinked, resume_operation (forward_link hraw) hget, walk, h.performing]

theorem ifStart (hraw : Unlinked code) (hget : (link code).toArray[position]? = some .ifStart)
    (h : WalksAsLinked code (position + 1) rest) :
    WalksAsLinked code position (.ifStart :: rest) := by
  refine ⟨?_, ?_, ?_⟩
  · rw [resumeLinked, resume_ifStart (forward_link hraw) hget, walk, h.performing]
  · intro depth
    rw [levelAt_ifStart]
    exact h.toEnd (depth + 1)
  · intro depth target htarget
    rw [levelAt_ifStart] at htarget
    exact h.toElse (depth + 1) target htarget

/-- A `%;` is the place to go on for its own level, and is passed over for those around it. -/
theorem ifEnd (hraw : Unlinked code) (hget : (link code).toArray[position]? = some .ifEnd)
    (h : WalksAsLinked code (position + 1) rest) :
    WalksAsLinked code position (.ifEnd :: rest) := by
  have hperforming : walk rest .performing = resumeLinked code position := by
    rw [resumeLinked, resume_ifEnd (forward_link hraw) hget, h.performing]
  refine ⟨hperforming, ?_, ?_⟩
  · intro depth
    cases depth with
    | zero => exact hperforming
    | succ depth => exact h.toEnd depth
  · intro depth target htarget
    cases depth with
    | zero =>
      cases htarget
      exact hperforming
    | succ depth => exact h.toElse depth target htarget

/-- When nothing of the level is ahead, a walk comes to the end, as the jump without a target does. -/
theorem onFalse (hundisputed : EndsAhead 0 rest → ¬ ThenAhead 0 rest)
    (h : WalksAsLinked code position rest) : walk rest (.passing true 0) = resumeLinked code
      (Program.destination ⟨(link code).toArray⟩ (levelAt code.length position 0 rest).onFalse) := by
  cases htarget : (levelAt code.length position 0 rest).onFalse with
  | none =>
    have hends : ¬ EndsAhead 0 rest := fun hends =>
      hundisputed hends (onFalse_eq_none_iff.1 htarget)
    rw [walk_of_not_endsAhead hends, Program.destination, Program.size, List.size_toArray,
      length_link]
    exact (resumeLinked_size code).symm
  | some target => exact h.toElse 0 target htarget

theorem thenJump (hraw : Unlinked code) (hundisputed : EndsAhead 0 rest → ¬ ThenAhead 0 rest)
    (hget : (link code).toArray[position]? =
      some (.thenJump (levelAt code.length (position + 1) 0 rest).onFalse))
    (h : WalksAsLinked code (position + 1) rest) :
    WalksAsLinked code position (.thenJump none :: rest) := by
  refine ⟨?_, ?_, ?_⟩
  · rw [resumeLinked, resume_thenJump (forward_link hraw) hget, walk, h.performing,
      h.onFalse hundisputed]
  · intro depth
    rw [exit_levelAt_thenJump]
    exact h.toEnd depth
  · intro depth target htarget
    cases depth with
    | zero =>
      rw [levelAt_thenJump_zero] at htarget
      cases htarget
    | succ depth =>
      rw [levelAt_thenJump_succ] at htarget
      exact h.toElse (depth + 1) target htarget

theorem elseJump (hraw : Unlinked code)
    (hget : (link code).toArray[position]? =
      some (.elseJump (some (levelAt code.length (position + 1) 0 rest).exit)))
    (h : WalksAsLinked code (position + 1) rest) :
    WalksAsLinked code position (.elseJump none :: rest) := by
  refine ⟨?_, ?_, ?_⟩
  · rw [resumeLinked, resume_elseJump (forward_link hraw) hget, walk, h.toEnd]
    rfl
  · intro depth
    rw [exit_levelAt_elseJump]
    exact h.toEnd depth
  · intro depth target htarget
    cases depth with
    | zero =>
      rw [levelAt_elseJump_zero] at htarget
      cases htarget
      exact h.performing
    | succ depth =>
      rw [levelAt_elseJump_succ] at htarget
      exact h.toElse (depth + 1) target htarget

end WalksAsLinked

theorem walksAsLinked (hraw : Unlinked code) (hcode : Undisputed code)
    {before : List Instruction} (h : code = before ++ rest) :
    WalksAsLinked code before.length rest := by
  induction rest generalizing before with
  | nil =>
    rw [List.append_nil] at h
    rw [← h]
    exact .nil code
  | cons instruction rest ih =>
    have hrest : WalksAsLinked code (before.length + 1) rest := by
      have hlater := @ih (before ++ [instruction]) (by rw [h, List.append_assoc]; rfl)
      rwa [List.length_append] at hlater
    have hget := getElem?_link before rest instruction
    rw [← h, ← List.getElem?_toArray] at hget
    have htarget : instruction.target? = none := by
      apply hraw
      simp [h]
    cases instruction with
    | operation op => exact hrest.operation hraw hget
    | ifStart => exact hrest.ifStart hraw hget
    | ifEnd => exact hrest.ifEnd hraw hget
    | thenJump raw =>
      cases htarget
      rw [link_thenJump] at hget
      exact hrest.thenJump hraw (hcode before none rest h) hget
    | elseJump raw =>
      cases htarget
      rw [link_elseJump] at hget
      exact hrest.elseJump hraw hget

/-- A linked program is run as a walk over its instructions. -/
theorem run_link_eq_walk (hraw : Unlinked code) (hcode : Undisputed code) :
    Program.run ⟨(link code).toArray⟩ = walk code .performing := by
  have hwalk := @walksAsLinked code code hraw hcode [] rfl
  exact hwalk.performing.symm

/-- A false condition that can go on at a `%e` or `%;` has a target exactly if no `%t` disputes it. -/
theorem exists_target_iff (hraw : Unlinked code) :
    (∀ before raw rest, code = before ++ .thenJump raw :: rest → EndsAhead 0 rest →
      ∃ target, (link code)[before.length]? = some (.thenJump (some target))) ↔
    Undisputed code := by
  refine forall_congr' fun before => forall_congr' fun raw => forall_congr' fun rest =>
    forall_congr' fun h => forall_congr' fun _ => ?_
  have htarget : raw = none := by
    apply hraw (.thenJump raw)
    simp [h]
  subst htarget
  have hget := getElem?_link before rest (.thenJump none)
  rw [← h, link_thenJump] at hget
  rw [hget, ← @onFalse_eq_none_iff code.length (before.length + 1)]
  cases (levelAt code.length (before.length + 1) 0 rest).onFalse <;> simp

end Linked
end Template

namespace Expansion
open Template

/-- Every false condition that can go on has a target exactly if no `%t` disputes another one's place.
No rest of the template is lost then: a run is a walk over it. -/
theorem Session.expand_eq_walk (template : Bytes) :
    ((∀ before raw rest, readInstructions template = before ++ .thenJump raw :: rest →
        EndsAhead 0 rest → ∃ target,
          (Program.compile template).instructions[before.length]? =
            some (.thenJump (some target))) ↔ Undisputed (readInstructions template)) ∧
    (Undisputed (readInstructions template) → ∀ (s : Session) (parameters : List Parameter),
      s.expand template parameters = s.walk template parameters) := by
  have hraw := unlinked_readInstructions template
  constructor
  · simp only [Program.compile, List.getElem?_toArray]
    exact exists_target_iff hraw
  · intro hcode s parameters
    rw [Session.expand, Session.run, Program.compile, run_link_eq_walk hraw hcode, Session.walk]

/-- Parts of conditionals that stand outside of any, and a conditional in a body that is left out. -/
def strayParts : Bytes := Bytes.ofAscii "%\x7b0\x7d%t%?%\x7b1\x7d%t%;A%eB%;%\x7b7\x7d%d%eC"

theorem Session.expand_strayParts : Undisputed (readInstructions strayParts) ∧
    Session.initial.expand strayParts [] = .ok (Bytes.ofAscii "B7", .initial) := by
  have hread : readInstructions strayParts =
      [.operation (.pushNumber 0), .thenJump none, .ifStart, .operation (.pushNumber 1),
        .thenJump none, .ifEnd, .operation (.literal ['A'.toUInt8]), .elseJump none,
        .operation (.literal ['B'.toUInt8]), .ifEnd, .operation (.pushNumber 7),
        .operation (.field .decimal { }), .elseJump none,
        .operation (.literal ['C'.toUInt8])] := by
    decide +kernel
  have hcode : Undisputed (readInstructions strayParts) := by
    rw [hread]
    decide
  refine ⟨hcode, ?_⟩
  rw [(expand_eq_walk strayParts).2 hcode]
  decide +kernel

/-- The second `%t` takes the place of the first one, whose false condition then ends the run. -/
def disputed : Bytes := Bytes.ofAscii "%?%\x7b0\x7d%tA%\x7b1\x7d%tB%;C"

theorem Session.expand_disputed :
    Session.initial.expand disputed [] = .ok ([], .initial) ∧
      Session.initial.walk disputed [] = .ok (['C'.toUInt8], .initial) := by
  constructor <;> decide +kernel

end Expansion
end TerminalCaps

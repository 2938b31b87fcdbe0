import TerminalCaps.Proofs.Expansion.Resumption
import TerminalCaps.Proofs.Template.Structure

/-!
Structured templates are run by jumps as they are evaluated by their structure, and it does not
matter whether the conditionals that end a template are closed.
-/
namespace TerminalCaps
namespace Template
open Expansion

mutual

/-- What a block does, part after part on one machine. -/
def Block.eval : Block → Machine → Outcome
  | .done => fun m => .ok ([], m)
  | .operation op rest => fun m => andThen (m.perform op) rest.eval
  | .conditional arms rest => fun m => andThen (arms.eval m) rest.eval

/-- The first body whose condition is not 0 is evaluated, or what remains. -/
def Arms.eval : Arms → Machine → Outcome
  | .only condition body => fun m =>
    andThen (condition.eval m) fun m => branch m body.eval fun m => .ok ([], m)
  | .orElse condition body otherwise => fun m =>
    andThen (condition.eval m) fun m => branch m body.eval otherwise.eval
  | .orIf condition body more => fun m =>
    andThen (condition.eval m) fun m => branch m body.eval more.eval

end

namespace Program

variable {p : Program} {position : Nat}

/-- Some instructions stand at a place of a program. -/
def Holds (p : Program) : Nat → List Instruction → Prop
  | _, [] => True
  | position, instruction :: rest =>
    p.instructions[position]? = some instruction ∧ p.Holds (position + 1) rest

theorem holds_append {first second : List Instruction} : p.Holds position (first ++ second) ↔
    p.Holds position first ∧ p.Holds (position + first.length) second := by
  induction first generalizing position with
  | nil => exact (true_and _).to_iff.symm
  | cons instruction rest ih =>
    rw [List.cons_append, Holds, Holds, ih, List.length_cons, Nat.add_right_comm, and_assoc]
    rfl

theorem holds_suffix {before code : List Instruction} (h : p.instructions.toList = before ++ code) :
    p.Holds before.length code := by
  induction code generalizing before with
  | nil => trivial
  | cons instruction rest ih =>
    constructor
    · rw [← Array.getElem?_toList, h, List.getElem?_append_right (Nat.le_refl _), Nat.sub_self]
      rfl
    · have hrest := @ih (before ++ [instruction]) (by rw [h, List.append_assoc]; rfl)
      rwa [List.length_append] at hrest

theorem holds_all (code : List Instruction) : Holds ⟨code.toArray⟩ 0 code :=
  @holds_suffix ⟨code.toArray⟩ [] code rfl

end Program

open Program

variable {p : Program}

/-- Wherever the instructions of a block stand, a run evaluates it and goes on behind it. -/
def RunsAsEvaluated (p : Program) (b : Block) : Prop :=
  ∀ position, p.Holds position (b.assemble position) →
    p.resume position = fun m => andThen (b.eval m) (p.resume (position + b.flatten.length))

/-- A condition and a body that goes on at the exit, or what a false condition jumps to. -/
theorem resume_condition (hp : p.Forward) {condition body : Block} {position onFalse exit : Nat}
    {otherwise : Machine → Outcome} (hcondition : RunsAsEvaluated p condition)
    (hat : p.Holds position (condition.assemble position))
    (hthen : p.instructions[position + condition.flatten.length]? =
      some (.thenJump (some onFalse)))
    (hbody : p.resume (position + condition.flatten.length + 1) =
      fun m => andThen (body.eval m) (p.resume exit))
    (hotherwise : p.resume onFalse = fun m => andThen (otherwise m) (p.resume exit)) :
    p.resume position = fun m =>
      andThen (andThen (condition.eval m) fun m => branch m body.eval otherwise)
        (p.resume exit) := by
  have hjump : p.resume (position + condition.flatten.length) = fun m =>
      andThen (branch m body.eval otherwise) (p.resume exit) := by
    rw [resume_thenJump hp hthen, hbody, destination, Option.getD_some, hotherwise]
    simp only [andThen_branch]
  rw [hcondition position hat, hjump]
  simp only [andThen_assoc]

/-- A body that ends with a jump to the exit, before what is tried instead of it. -/
theorem resume_alternative (hp : p.Forward) {condition body : Block} {position exit : Nat}
    {rest : List Instruction} {otherwise : Machine → Outcome}
    (hcondition : RunsAsEvaluated p condition) (hbody : RunsAsEvaluated p body)
    (hotherwise : ∀ onFalse,
      onFalse = position + condition.flatten.length + 1 + body.flatten.length + 1 →
      p.Holds onFalse rest → p.resume onFalse = fun m => andThen (otherwise m) (p.resume exit))
    (h : p.Holds position (condition.assemble position ++
      .thenJump (some (position + condition.flatten.length + 1 + body.flatten.length + 1)) ::
        (body.assemble (position + condition.flatten.length + 1) ++ .elseJump (some exit) :: rest))) :
    p.resume position = fun m =>
      andThen (andThen (condition.eval m) fun m => branch m body.eval otherwise)
        (p.resume exit) := by
  obtain ⟨hat, hthen, htail⟩ := holds_append.1 h
  obtain ⟨hat', helse, hrest⟩ := holds_append.1 htail
  rw [Block.length_assemble] at hthen hat' helse hrest
  rw [Block.length_assemble] at helse hrest
  have htrue := hbody _ hat'
  rw [resume_elseJump hp helse] at htrue
  exact resume_condition hp hcondition hat hthen htrue (hotherwise _ rfl hrest)

mutual

theorem Block.resume_assemble (hp : p.Forward) (b : Block) : RunsAsEvaluated p b := by
  intro position h
  cases b with
  | done =>
    funext m
    exact (andThen_ok_nil m _).symm
  | operation op rest =>
    obtain ⟨hop, hrest⟩ := h
    rw [resume_operation hp hop, rest.resume_assemble hp (position + 1) hrest, Block.flatten,
      List.length_cons, Nat.add_right_comm, Nat.add_assoc]
    simp only [Block.eval, andThen_assoc]
  | conditional arms rest =>
    obtain ⟨hstart, htail⟩ := h
    obtain ⟨harms, hend, hrest⟩ := holds_append.1 htail
    rw [Arms.length_assemble] at hend hrest
    have hlength : position + (Block.conditional arms rest).flatten.length =
        position + 1 + arms.flatten.length + 1 + rest.flatten.length := by
      rw [Block.flatten, List.length_cons, List.length_append, List.length_cons]
      omega
    rw [resume_ifStart hp hstart, arms.resume_assemble hp (position + 1) _ rfl harms,
      resume_ifEnd hp hend, rest.resume_assemble hp _ hrest, hlength]
    simp only [Block.eval, andThen_assoc]

/-- A run from the inside of a conditional evaluates it and goes on where it is left. -/
theorem Arms.resume_assemble (hp : p.Forward) (arms : Arms) (position exit : Nat)
    (hexit : position + arms.flatten.length = exit)
    (h : p.Holds position (arms.assemble position exit)) :
    p.resume position = fun m => andThen (arms.eval m) (p.resume exit) := by
  cases arms with
  | only condition body =>
    obtain ⟨hat, hthen, hbody⟩ := holds_append.1 h
    rw [Block.length_assemble] at hthen hbody
    have hstop : position + condition.flatten.length + 1 + body.flatten.length = exit := by
      rw [Arms.flatten, List.length_append, List.length_cons] at hexit
      omega
    have htrue := body.resume_assemble hp _ hbody
    rw [hstop] at htrue
    have hnothing : p.resume exit = fun m => andThen (.ok ([], m)) (p.resume exit) := by
      simp only [andThen_ok_nil]
    exact resume_condition hp (condition.resume_assemble hp) hat hthen htrue hnothing
  | orElse condition body otherwise =>
    refine resume_alternative hp (condition.resume_assemble hp) (body.resume_assemble hp) ?_ h
    intro onFalse honFalse hotherwise
    have hfalse := otherwise.resume_assemble hp onFalse (honFalse ▸ hotherwise)
    have hstop : onFalse + otherwise.flatten.length = exit := by
      simp only [Arms.flatten, List.length_append, List.length_cons] at hexit
      omega
    rw [hstop] at hfalse
    exact hfalse
  | orIf condition body more =>
    refine resume_alternative hp (condition.resume_assemble hp) (body.resume_assemble hp) ?_ h
    intro onFalse honFalse hmore
    have hstop : onFalse + more.flatten.length = exit := by
      simp only [Arms.flatten, List.length_append, List.length_cons] at hexit
      omega
    exact more.resume_assemble hp onFalse exit hstop (honFalse ▸ hmore)

end

/-- A linked block is run as it is evaluated. -/
theorem run_link_flatten (b : Block) :
    Program.run ⟨(link b.flatten).toArray⟩ = b.eval := by
  have hp := forward_link b.unlinked_flatten
  have hholds := holds_all (link b.flatten)
  rw [b.link_flatten] at hp hholds ⊢
  have hresume := b.resume_assemble hp 0 hholds
  have hend : Program.size ⟨(b.assemble 0).toArray⟩ = 0 + b.flatten.length := by
    rw [Program.size, List.size_toArray, Block.length_assemble, Nat.zero_add]
  funext m
  calc Program.run _ m = Program.resume _ 0 m := rfl
    _ = andThen (b.eval m) (Program.resume _ (0 + b.flatten.length)) := congrFun hresume m
    _ = b.eval m := by
      rw [resume_of_size_le (Nat.le_of_eq hend)]
      exact andThen_nothing _

section Trailing

variable {code : List Instruction}

theorem unlinked_concat_ifEnd (h : Unlinked code) : Unlinked (code ++ [.ifEnd]) :=
  h.append (List.forall_mem_singleton.2 rfl)

theorem resume_ifEnd_at_end (h : Unlinked code) {position : Nat} (hsize : code.length ≤ position) :
    Program.resume ⟨(link (code ++ [.ifEnd])).toArray⟩ position = fun m => .ok ([], m) := by
  have hp := forward_link (unlinked_concat_ifEnd h)
  have hbehind : ∀ later, code.length < later →
      Program.resume ⟨(link (code ++ [.ifEnd])).toArray⟩ later = fun m => .ok ([], m) := by
    intro later hlater
    apply resume_of_size_le
    rw [Program.size, List.size_toArray, length_link, List.length_append]
    exact hlater
  rcases Nat.eq_or_lt_of_le hsize with rfl | hlt
  · have hget : (link (code ++ [.ifEnd])).toArray[code.length]? = some .ifEnd := by
      rw [List.getElem?_toArray, getElem?_link_concat_ifEnd]
    rw [resume_ifEnd hp hget, hbehind _ (Nat.lt_succ_self _)]
  · exact hbehind position hlt

theorem sameEnd_destination {a b : Option Nat} (h : Option.Rel (SameEnd code.length) a b) :
    SameEnd code.length (Program.destination ⟨(link code).toArray⟩ a)
      (Program.destination ⟨(link (code ++ [.ifEnd])).toArray⟩ b) := by
  cases h with
  | some h => exact h
  | none =>
    simp only [Program.destination, Program.size, List.size_toArray, length_link, List.length_append,
      Option.getD_none]
    exact .inr ⟨Nat.le_refl _, Nat.le_add_right _ _⟩

/-- Runs with and without a `%;` at the end stay at the same place until both are at the end. -/
theorem resume_concat_ifEnd (h : Unlinked code) {a b : Nat} (hab : SameEnd code.length a b) :
    Program.resume ⟨(link (code ++ [.ifEnd])).toArray⟩ b =
      Program.resume ⟨(link code).toArray⟩ a := by
  have hp := forward_link h
  have hp' := forward_link (unlinked_concat_ifEnd h)
  -- Jumps lead forward, so what is left of the program gets shorter with every step.
  induction hn : code.length - a using Nat.strongRecOn generalizing a b with
  | ind n ih =>
    rcases Nat.lt_or_ge a code.length with hlt | hge
    · have hlater : ∀ {a' b'}, a < a' → SameEnd code.length a' b' →
          Program.resume ⟨(link (code ++ [.ifEnd])).toArray⟩ b' =
            Program.resume ⟨(link code).toArray⟩ a' := by
        intro a' b' hlater hsame
        exact ih (code.length - a') (by omega) hsame rfl
      have hb : b = a := by
        rcases hab with rfl | hab
        · rfl
        · omega
      have hnext := hlater (Nat.lt_succ_self a) (.inl rfl)
      obtain ⟨instruction, instruction', hget, hget', halike⟩ := exists_alike hlt
      rw [← List.getElem?_toArray] at hget hget'
      have hforward := lt_destination hp hget
      rw [hb]
      cases halike with
      | operation op => rw [resume_operation hp' hget', resume_operation hp hget, hnext]
      | ifStart => rw [resume_ifStart hp' hget', resume_ifStart hp hget, hnext]
      | ifEnd => rw [resume_ifEnd hp' hget', resume_ifEnd hp hget, hnext]
      | thenJump htarget =>
        rw [resume_thenJump hp' hget', resume_thenJump hp hget, hnext,
          hlater hforward (sameEnd_destination htarget)]
        rfl
      | elseJump htarget =>
        rw [resume_elseJump hp' hget', resume_elseJump hp hget,
          hlater hforward (sameEnd_destination htarget)]
        rfl
    · have hb : code.length ≤ b := by
        rcases hab with rfl | hab
        · exact hge
        · exact hab.2
      rw [resume_ifEnd_at_end h hb, resume_of_size_le]
      rw [Program.size, List.size_toArray, length_link]
      exact hge

/-- Conditionals need not be closed at the end of a program. -/
theorem run_link_append_ifEnds (h : Unlinked code) (k : Nat) :
    Program.run ⟨(link (code ++ List.replicate k .ifEnd)).toArray⟩ =
      Program.run ⟨(link code).toArray⟩ := by
  induction k with
  | zero => rw [List.replicate_zero, List.append_nil]
  | succ k ih =>
    have hunlinked : Unlinked (code ++ List.replicate k .ifEnd) := by
      refine h.append ?_
      intro instruction hinstruction
      rw [List.eq_of_mem_replicate hinstruction]
      rfl
    rw [List.replicate_succ', ← List.append_assoc, ← ih]
    exact @resume_concat_ifEnd _ hunlinked 0 0 (.inl rfl)

end Trailing

/-- A structured template is run as it is evaluated, closed at the end or not. -/
theorem session_run_structured (b : Block) (code : List Instruction) (unclosed : Nat)
    (h : b.flatten = code ++ List.replicate unclosed .ifEnd) (s : Session)
    (parameters : List Parameter) :
    s.run ⟨(link code).toArray⟩ parameters = do
      let (output, m) ← b.eval (.start s.statics parameters)
      return (output, ⟨m.statics⟩) := by
  have hcode : Unlinked code := by
    have hflatten := b.unlinked_flatten
    rw [h] at hflatten
    exact fun instruction hmem => hflatten instruction (List.mem_append_left _ hmem)
  rw [Session.run, ← run_link_append_ifEnds hcode unclosed, ← h, run_link_flatten]

/-- As `%?%p1%tA%e%p2%t%?%p2%{7}%=%tB%;%;`, with a condition inside of the second body. -/
def chain : Block :=
  let equalsSeven := .operation (.pushParameter 1)
    (.operation (.pushNumber 7) (.operation (.binary .equal) .done))
  let inner := .conditional (.only equalsSeven (.operation (.literal ['B'.toUInt8]) .done)) .done
  .conditional (.orIf (.operation (.pushParameter 0) .done)
    (.operation (.literal ['A'.toUInt8]) .done)
    (.only (.operation (.pushParameter 1) .done) inner)) .done

def unclosedChain : List Instruction :=
  [.ifStart, .operation (.pushParameter 0), .thenJump none, .operation (.literal ['A'.toUInt8]),
    .elseJump none, .operation (.pushParameter 1), .thenJump none, .ifStart,
    .operation (.pushParameter 1), .operation (.pushNumber 7), .operation (.binary .equal),
    .thenJump none, .operation (.literal ['B'.toUInt8])]

theorem session_run_unclosedChain : chain.flatten = unclosedChain ++ List.replicate 2 .ifEnd ∧
    Session.initial.run ⟨(link unclosedChain).toArray⟩ [.number 0, .number 7] =
      .ok (['B'.toUInt8], .initial) :=
  ⟨rfl, session_run_structured chain unclosedChain 2 rfl .initial [.number 0, .number 7]⟩

end Template
end TerminalCaps

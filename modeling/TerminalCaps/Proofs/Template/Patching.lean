import TerminalCaps.Proofs.Template.Jumps

/-!
Linking in one pass from the front. The conditionals that are open keep the places of their jumps, and
the instructions there are patched when the pass comes to the place that they lead to. What is left in
the end are the instructions as they are linked from the end.
-/
namespace TerminalCaps.Template

/-- The places of an open conditional whose jumps wait for a target. -/
structure OpenConditional where
  pendingThen : Option Nat := none
  elses : List Nat := []
  deriving DecidableEq, Repr

/-- The instructions with the same one put at some places. -/
def patchAt (instruction : Instruction) (places : List Nat) (code : List Instruction) :
    List Instruction :=
  places.foldl (fun code place => code.set place instruction) code

namespace OpenConditional

/-- The instructions when all jumps of the conditional lead to one place. -/
def close (c : OpenConditional) (target : Nat) (code : List Instruction) : List Instruction :=
  patchAt (.elseJump (some target)) c.elses
    (patchAt (.thenJump (some target)) c.pendingThen.toList code)

/-- The innermost of the open conditionals; a jump outside of all of them opens a new one. -/
def innermost (opened : List OpenConditional) : OpenConditional := opened.headD { }

end OpenConditional

/-- A pass over instructions: what they have become, and the open conditionals, the innermost first. -/
structure Pass where
  code : List Instruction
  opened : List OpenConditional
  deriving DecidableEq, Repr

namespace Pass
open OpenConditional

/-- Goes over the instruction at a place. A `%t` takes the place of another one that is pending. -/
def step (pass : Pass) (place : Nat) : Pass :=
  let c := innermost pass.opened
  match pass.code[place]? with
  | some .ifStart => { pass with opened := { } :: pass.opened }
  | some (.thenJump _) =>
    { pass with opened := { c with pendingThen := some place } :: pass.opened.tail }
  | some (.elseJump _) =>
    ⟨patchAt (.thenJump (some (place + 1))) c.pendingThen.toList pass.code,
      ⟨none, c.elses ++ [place]⟩ :: pass.opened.tail⟩
  | some .ifEnd => ⟨c.close place pass.code, pass.opened.tail⟩
  | _ => pass

/-- The instructions when the end closes the conditionals that are still open. -/
def finish (pass : Pass) (size : Nat) : List Instruction :=
  pass.opened.foldl (fun code c => c.close size code) pass.code

end Pass

/-- The instructions with the targets of all jumps, in one pass. -/
def linkInOnePass (code : List Instruction) : List Instruction :=
  ((List.range code.length).foldl Pass.step ⟨code, []⟩).finish code.length

section Patching

variable {instruction : Instruction} {places : List Nat} {code : List Instruction}

@[simp] theorem length_patchAt : (patchAt instruction places code).length = code.length := by
  unfold patchAt
  induction places generalizing code with
  | nil => rfl
  | cons place places ih => rw [List.foldl_cons, ih, List.length_set]

/-- Places at the front can be patched before the rest is there. -/
theorem patchAt_append (h : ∀ place ∈ places, place < code.length) (more : List Instruction) :
    patchAt instruction places (code ++ more) = patchAt instruction places code ++ more := by
  unfold patchAt
  induction places generalizing code with
  | nil => rfl
  | cons place places ih =>
    obtain ⟨hplace, hplaces⟩ := List.forall_mem_cons.1 h
    rw [List.foldl_cons, List.foldl_cons, List.set_append_left _ _ hplace]
    apply ih
    rwa [List.length_set]

theorem patchAt_concat (place : Nat) : patchAt instruction (places ++ [place]) code =
    (patchAt instruction places code).set place instruction := by
  simp [patchAt, List.foldl_append]

theorem set_length_concat (code : List Instruction) (first second : Instruction) :
    (code ++ [first]).set code.length second = code ++ [second] := by
  rw [List.set_append_right _ _ (Nat.le_refl _), Nat.sub_self]
  rfl

end Patching

namespace OpenConditional

variable {c : OpenConditional} {opened : List OpenConditional} {levels : List Level}
  {level : Level} {code : List Instruction} {size n : Nat}

/-- All jumps of the conditional stand before a place. -/
structure Before (n : Nat) (c : OpenConditional) : Prop where
  pendingThen : ∀ place ∈ c.pendingThen.toList, place < n
  elses : ∀ place ∈ c.elses, place < n

theorem Before.succ (h : c.Before n) : c.Before (n + 1) :=
  ⟨fun place hplace => Nat.lt_succ_of_lt (h.pendingThen place hplace),
    fun place hplace => Nat.lt_succ_of_lt (h.elses place hplace)⟩

theorem before_none : Before n { } where
  pendingThen := List.forall_mem_nil _
  elses := List.forall_mem_nil _

theorem before_innermost (h : ∀ c ∈ opened, c.Before n) : (innermost opened).Before n := by
  cases opened with
  | nil => exact before_none
  | cons c opened => exact h c List.mem_cons_self

/-- The instructions when the jumps of the conditional lead where its level says. -/
def patch (c : OpenConditional) (level : Level) (code : List Instruction) : List Instruction :=
  patchAt (.elseJump (some level.exit)) c.elses
    (level.onFalse.elim code fun target =>
      patchAt (.thenJump (some target)) c.pendingThen.toList code)

/-- The instructions when all open conditionals are patched, each by its own level. -/
def patchAll (size : Nat) : List Level → List OpenConditional → List Instruction → List Instruction
  | _, [], code => code
  | levels, c :: outer, code =>
    patchAll size levels.tail outer (c.patch (Level.innermost size levels) code)

@[simp] theorem length_patch : (c.patch level code).length = code.length := by
  rw [patch, length_patchAt]
  cases level.onFalse with
  | none => rfl
  | some target => exact length_patchAt

theorem patch_append (h : c.Before code.length) (more : List Instruction) :
    c.patch level (code ++ more) = c.patch level code ++ more := by
  rw [patch, patch]
  cases level.onFalse with
  | none => exact patchAt_append h.elses more
  | some target =>
    simp only [Option.elim_some]
    rw [patchAt_append h.pendingThen, patchAt_append]
    rw [length_patchAt]
    exact h.elses

theorem patchAll_append (h : ∀ c ∈ opened, c.Before code.length) (more : List Instruction) :
    patchAll size levels opened (code ++ more) = patchAll size levels opened code ++ more := by
  induction opened generalizing levels code with
  | nil => rfl
  | cons c outer ih =>
    obtain ⟨hc, houter⟩ := List.forall_mem_cons.1 h
    rw [patchAll, patchAll, patch_append hc]
    apply ih
    rwa [length_patch]

theorem patch_none : patch { } level code = code := by
  rw [patch]
  cases level.onFalse <;> rfl

/-- A conditional without jumps needs no patches, so the innermost may be a new one. -/
theorem patchAll_eq (size : Nat) (levels : List Level) (opened : List OpenConditional)
    (code : List Instruction) : patchAll size levels opened code =
      patchAll size levels.tail opened.tail
        ((innermost opened).patch (Level.innermost size levels) code) := by
  cases opened with
  | cons c outer => rfl
  | nil => rw [innermost, List.headD_nil, patch_none]; rfl

/-- A pending `%t` gets the target of its level, if the level has one left. -/
theorem patch_thenJump (h : c.Before code.length) (raw : Option Nat) :
    patch { c with pendingThen := some code.length } level (code ++ [.thenJump raw]) =
      c.patch { level with onFalse := none } code ++ [.thenJump (level.onFalse <|> raw)] := by
  rw [patch, patch]
  cases level.onFalse with
  | none => exact patchAt_append h.elses _
  | some target =>
    have hset : patchAt (.thenJump (some target)) [code.length] (code ++ [.thenJump raw]) =
        code ++ [.thenJump (some target)] := set_length_concat ..
    simp only [Option.elim_some, Option.elim_none, Option.toList_some, hset]
    exact patchAt_append h.elses _

/-- A `%e` gives the pending `%t` its target, and waits for the end of its level. -/
theorem patch_elseJump (h : c.Before code.length) (raw : Option Nat) :
    patch ⟨none, c.elses ++ [code.length]⟩ level
        (patchAt (.thenJump (some (code.length + 1))) c.pendingThen.toList code ++
          [.elseJump raw]) =
      c.patch { level with onFalse := some (code.length + 1) } code ++
        [.elseJump (some level.exit)] := by
  have hpending : ∀ instructions : List Instruction,
      (level.onFalse.elim instructions fun target =>
        patchAt (.thenJump (some target)) [] instructions) = instructions := by
    intro instructions
    cases level.onFalse <;> rfl
  have helses : ∀ place ∈ c.elses, place <
      (patchAt (.thenJump (some (code.length + 1))) c.pendingThen.toList code).length := by
    rw [length_patchAt]
    exact h.elses
  rw [patch, patch, Option.toList_none, hpending, patchAt_concat, patchAt_append helses]
  simp only [Option.elim_some]
  have hset := set_length_concat (patchAt (.elseJump (some level.exit)) c.elses
    (patchAt (.thenJump (some (code.length + 1))) c.pendingThen.toList code))
    (.elseJump raw) (.elseJump (some level.exit))
  rwa [length_patchAt, length_patchAt] at hset

/-- At the end the conditionals that are still open are closed. -/
theorem finish_eq_patchAll (size : Nat) (opened : List OpenConditional) (code : List Instruction) :
    Pass.finish ⟨code, opened⟩ size = patchAll size [] opened code := by
  unfold Pass.finish
  induction opened generalizing code with
  | nil => rfl
  | cons c outer ih => exact ih (c.close size code)

end OpenConditional

namespace Pass
open OpenConditional

variable {done done' rest : List Instruction} {opened opened' : List OpenConditional}
  {size : Nat} {instruction : Instruction}

/-- The pass has gone over one more instruction. Whatever the levels behind it are, patching what is
open now gives what its linking and the patches of what was open before give. -/
structure Follows (size : Nat) (instruction : Instruction) (done : List Instruction)
    (opened : List OpenConditional) (done' : List Instruction) (opened' : List OpenConditional) :
    Prop where
  length_eq : done'.length = done.length + 1
  before : ∀ c ∈ opened', c.Before (done.length + 1)
  patched : ∀ levels, patchAll size levels opened' done' =
    patchAll size (instruction.link size done.length levels).2 opened done ++
      [(instruction.link size done.length levels).1]

section Steps

variable (h : ∀ c ∈ opened, c.Before done.length)
include h

theorem before_succ : ∀ c ∈ opened, c.Before (done.length + 1) := fun c hc => (h c hc).succ

theorem before_tail : ∀ c ∈ opened.tail, c.Before (done.length + 1) :=
  fun c hc => (h c (List.mem_of_mem_tail hc)).succ

theorem follows_operation (op : Operation) :
    Follows size (.operation op) done opened (done ++ [.operation op]) opened where
  length_eq := List.length_append
  before := before_succ h
  patched _ := patchAll_append h _

theorem follows_ifStart : Follows size .ifStart done opened (done ++ [.ifStart]) ({ } :: opened) where
  length_eq := List.length_append
  before := List.forall_mem_cons.2 ⟨before_none, before_succ h⟩
  patched levels := by
    rw [patchAll, patch_none]
    exact patchAll_append h _

theorem follows_ifEnd : Follows size .ifEnd done opened
    ((innermost opened).close done.length done ++ [.ifEnd]) opened.tail where
  length_eq := by simp [close]
  before := before_tail h
  patched levels := by
    have htail : ∀ c ∈ opened.tail, c.Before ((innermost opened).close done.length done).length := by
      intro c hc
      simpa [close] using h c (List.mem_of_mem_tail hc)
    rw [patchAll_append htail, patchAll_eq size _ opened]
    rfl

theorem follows_thenJump (raw : Option Nat) :
    Follows size (.thenJump raw) done opened (done ++ [.thenJump raw])
      ({ innermost opened with pendingThen := some done.length } :: opened.tail) where
  length_eq := List.length_append
  before := by
    have helses := (before_innermost h).succ.elses
    refine List.forall_mem_cons.2 ⟨⟨?_, helses⟩, before_tail h⟩
    exact List.forall_mem_singleton.2 (Nat.lt_succ_self _)
  patched levels := by
    have htail : ∀ c ∈ opened.tail, c.Before ((innermost opened).patch
        { Level.innermost size levels with onFalse := none } done).length := by
      intro c hc
      rw [length_patch]
      exact h c (List.mem_of_mem_tail hc)
    rw [patchAll, patch_thenJump (before_innermost h), patchAll_append htail,
      patchAll_eq size _ opened]
    rfl

theorem follows_elseJump (raw : Option Nat) :
    Follows size (.elseJump raw) done opened
      (patchAt (.thenJump (some (done.length + 1))) (innermost opened).pendingThen.toList done ++
        [.elseJump raw])
      (⟨none, (innermost opened).elses ++ [done.length]⟩ :: opened.tail) where
  length_eq := by simp
  before := by
    have helses := (before_innermost h).succ.elses
    refine List.forall_mem_cons.2 ⟨⟨List.forall_mem_nil _, ?_⟩, before_tail h⟩
    exact List.forall_mem_append.2 ⟨helses, List.forall_mem_singleton.2 (Nat.lt_succ_self _)⟩
  patched levels := by
    have htail : ∀ c ∈ opened.tail, c.Before ((innermost opened).patch
        { Level.innermost size levels with onFalse := some (done.length + 1) } done).length := by
      intro c hc
      rw [length_patch]
      exact h c (List.mem_of_mem_tail hc)
    rw [patchAll, patch_elseJump (before_innermost h), patchAll_append htail,
      patchAll_eq size _ opened]
    rfl

theorem exists_step (size : Nat) (instruction : Instruction) (rest : List Instruction) :
    ∃ done' opened',
      step ⟨done ++ instruction :: rest, opened⟩ done.length = ⟨done' ++ rest, opened'⟩ ∧
        Follows size instruction done opened done' opened' := by
  have hget : (done ++ instruction :: rest)[done.length]? = some instruction := by simp
  have hsplit : done ++ instruction :: rest = (done ++ [instruction]) ++ rest := by simp
  have hinnermost := before_innermost h
  unfold step
  rw [hget]
  cases instruction with
  | operation op => exact ⟨_, _, by rw [hsplit], follows_operation h op⟩
  | ifStart => exact ⟨_, _, by rw [hsplit], follows_ifStart h⟩
  | thenJump raw => exact ⟨_, _, by rw [hsplit], follows_thenJump h raw⟩
  | elseJump raw =>
    refine ⟨_, _, ?_, follows_elseJump h raw⟩
    dsimp only
    rw [patchAt_append hinnermost.pendingThen]
    simp
  | ifEnd =>
    refine ⟨_, _, ?_, follows_ifEnd h⟩
    have hclose : (innermost opened).close done.length (done ++ .ifEnd :: rest) =
        (innermost opened).close done.length done ++ .ifEnd :: rest :=
      @patch_append _ (Level.closedAt done.length) _ hinnermost _
    simp [hclose]

/-- The rest of a pass: the patches are those of the levels that are open before the rest. -/
theorem finish_foldl_step :
    ((List.range' done.length rest.length).foldl step ⟨done ++ rest, opened⟩).finish size =
      patchAll size (linkOnto size done.length rest []).2 opened done ++
        (linkOnto size done.length rest []).1 := by
  induction rest generalizing done opened with
  | nil =>
    rw [List.append_nil]
    exact (finish_eq_patchAll size opened done).trans (List.append_nil _).symm
  | cons instruction rest ih =>
    obtain ⟨done', opened', hstep, hfollows⟩ := exists_step h size instruction rest
    have hlength := hfollows.length_eq
    rw [List.length_cons, List.range'_succ, List.foldl_cons, hstep, ← hlength,
      ih (hlength ▸ hfollows.before), hfollows.patched, List.append_assoc, hlength]
    rfl

end Steps
end Pass

/-- One pass from the front links as the linking from the end does. -/
theorem linkInOnePass_eq (code : List Instruction) : linkInOnePass code = link code := by
  have hpass := @Pass.finish_foldl_step [] code [] code.length (List.forall_mem_nil _)
  rw [linkInOnePass, link, linkFrom_eq, List.range_eq_range']
  exact hpass

end TerminalCaps.Template

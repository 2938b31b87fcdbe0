import Mathlib.Data.List.Forall2
import Mathlib.Data.Option.Defs
import TerminalCaps.Proofs.Template.Consumption

/-!
Linking, seen from any place of the list. Linked jumps lead forward and stay in the program, and a `%;`
at the end of the list makes no difference except to jumps that end the program anyway.
-/
namespace TerminalCaps.Template

/-- Where a jump leads, if it leads anywhere. -/
def Instruction.target? : Instruction → Option Nat
  | .thenJump target | .elseJump target => target
  | _ => none

/-- The instructions as they are read, before linking. -/
def Unlinked (code : List Instruction) : Prop := ∀ instruction ∈ code, instruction.target? = none

theorem Instruction.FoundIn.target? {instruction : Instruction} {consumed : Bytes}
    (h : instruction.FoundIn consumed) : instruction.target? = none := by
  cases instruction with
  | thenJump target => exact h.2
  | elseJump target => exact h.2
  | _ => rfl

/-- No jump of a template has a target before linking. -/
theorem unlinked_readInstructions (template : Bytes) : Unlinked (readInstructions template) := by
  induction template using readInstructions.induct with
  | case1 =>
    rw [readInstructions]
    exact List.forall_mem_nil _
  | case2 rest reading ih =>
    rw [readInstructions_percent]
    refine List.forall_mem_append.2 ⟨?_, ih⟩
    intro instruction h
    obtain ⟨consumed, -, -, hfound⟩ := readsAt_readEscape rest
    exact (hfound instruction (Option.mem_toList.1 h)).target?
  | case3 b rest h ih =>
    rw [readInstructions, if_neg h]
    exact List.forall_mem_cons.2 ⟨rfl, ih⟩

/-- As `linkFrom` for instructions that stand before others, which leave the levels open. -/
def linkOnto (size : Nat) : Nat → List Instruction → List Level → List Instruction × List Level
  | _, [], levels => ([], levels)
  | position, instruction :: rest, levels =>
    let later := linkOnto size (position + 1) rest levels
    let first := instruction.link size position later.2
    (first.1 :: later.1, first.2)

variable {size position : Nat} {code : List Instruction} {levels : List Level}

theorem linkFrom_eq (size position : Nat) (code : List Instruction) :
    linkFrom size position code = linkOnto size position code [] := by
  induction code generalizing position with
  | nil => rfl
  | cons instruction rest ih =>
    rw [linkFrom, ih]
    rfl

theorem length_linkOnto : (linkOnto size position code levels).1.length = code.length := by
  induction code generalizing position with
  | nil => rfl
  | cons instruction rest ih => rw [linkOnto, List.length_cons, ih, List.length_cons]

theorem linkOnto_append (first second : List Instruction) :
    linkOnto size position (first ++ second) levels =
      let later := linkOnto size (position + first.length) second levels
      let sooner := linkOnto size position first later.2
      (sooner.1 ++ later.1, sooner.2) := by
  induction first generalizing position with
  | nil => rfl
  | cons instruction rest ih =>
    have hlength : position + 1 + rest.length = position + (instruction :: rest).length := by
      rw [List.length_cons]
      omega
    rw [List.cons_append, linkOnto, ih, hlength]
    rfl

section Places

/-- No jump to the level leads before a place. -/
def Level.From (position : Nat) (level : Level) : Prop :=
  position ≤ level.exit ∧ ∀ target, level.onFalse = some target → position ≤ target

/-- No jump to the level leads behind the end of the program. -/
def Level.Inside (size : Nat) (level : Level) : Prop :=
  level.exit ≤ size ∧ ∀ target, level.onFalse = some target → target ≤ size

theorem Level.From.mono {level : Level} (h : level.From (position + 1)) : level.From position :=
  ⟨Nat.le_of_succ_le h.1, fun target htarget => Nat.le_of_succ_le (h.2 target htarget)⟩

theorem Level.places_closedAt {place : Nat} (hfrom : position ≤ place) (hinside : place ≤ size) :
    (closedAt place).From position ∧ (closedAt place).Inside size := by
  refine ⟨⟨hfrom, ?_⟩, hinside, ?_⟩
  · rintro target ⟨⟩
    exact hfrom
  · rintro target ⟨⟩
    exact hinside

theorem Level.places_innermost (hsize : position ≤ size)
    (h : ∀ level ∈ levels, level.From position ∧ level.Inside size) :
    (innermost size levels).From position ∧ (innermost size levels).Inside size := by
  cases levels with
  | nil => exact places_closedAt hsize (Nat.le_refl size)
  | cons level levels => exact h level List.mem_cons_self

/-- Linking leaves no jump that leads to its own place, before it or behind the end. -/
theorem Instruction.link_places {instruction : Instruction} (hposition : position < size)
    (hraw : instruction.target? = none)
    (h : ∀ level ∈ levels, level.From (position + 1) ∧ level.Inside size) :
    (∀ target, (instruction.link size position levels).1.target? = some target →
      position < target ∧ target ≤ size) ∧
    ∀ level ∈ (instruction.link size position levels).2,
      level.From position ∧ level.Inside size := by
  obtain ⟨hfrom, hinside⟩ := Level.places_innermost hposition h
  have hlevels : ∀ level ∈ levels, level.From position ∧ level.Inside size :=
    fun level hlevel => ⟨(h level hlevel).1.mono, (h level hlevel).2⟩
  have htail : ∀ level ∈ levels.tail, level.From position ∧ level.Inside size :=
    fun level hlevel => hlevels level (List.mem_of_mem_tail hlevel)
  have hnowhere : ∀ target, none = some target → position < target ∧ target ≤ size := by
    rintro target ⟨⟩
  cases instruction with
  | operation op => exact ⟨hnowhere, hlevels⟩
  | ifStart => exact ⟨hnowhere, htail⟩
  | ifEnd =>
    have hclosed := Level.places_closedAt (Nat.le_refl position) (Nat.le_of_lt hposition)
    exact ⟨hnowhere, List.forall_mem_cons.2 ⟨hclosed, hlevels⟩⟩
  | thenJump raw =>
    cases hraw
    refine ⟨?_, List.forall_mem_cons.2 ⟨⟨⟨Nat.le_of_succ_le hfrom.1, ?_⟩, hinside.1, ?_⟩, htail⟩⟩
    · intro target htarget
      have hfalse : (Level.innermost size levels).onFalse = some target := by
        simpa [Instruction.link, Instruction.target?] using htarget
      exact ⟨hfrom.2 target hfalse, hinside.2 target hfalse⟩
    · rintro target ⟨⟩
    · rintro target ⟨⟩
  | elseJump raw =>
    refine ⟨?_, List.forall_mem_cons.2 ⟨⟨⟨Nat.le_of_succ_le hfrom.1, ?_⟩, hinside.1, ?_⟩, htail⟩⟩
    · rintro target ⟨⟩
      exact ⟨hfrom.1, hinside.1⟩
    · rintro target ⟨⟩
      exact Nat.le_succ position
    · rintro target ⟨⟩
      exact hposition

theorem linkOnto_places (hsize : position + code.length ≤ size) (hraw : Unlinked code)
    (h : ∀ level ∈ levels, level.From (position + code.length) ∧ level.Inside size) :
    (∀ (i : Nat) (instruction : Instruction) (target : Nat),
      (linkOnto size position code levels).1[i]? = some instruction →
      instruction.target? = some target → position + i < target ∧ target ≤ size) ∧
    ∀ level ∈ (linkOnto size position code levels).2, level.From position ∧ level.Inside size := by
  induction code generalizing position with
  | nil => exact ⟨fun i instruction target hget => by simp [linkOnto] at hget, h⟩
  | cons first rest ih =>
    obtain ⟨hfirst, hrest⟩ := List.forall_mem_cons.1 hraw
    rw [List.length_cons, ← Nat.add_assoc, Nat.add_right_comm] at hsize h
    obtain ⟨hjumps, hlevels⟩ := ih hsize hrest h
    have hposition : position < size := by omega
    obtain ⟨hjump, hlevels'⟩ := Instruction.link_places hposition hfirst hlevels
    refine ⟨?_, hlevels'⟩
    intro i instruction target hget htarget
    cases i with
    | zero =>
      cases hget
      exact hjump target htarget
    | succ i =>
      have hplaces := hjumps i instruction target hget htarget
      omega

/-- Every linked jump leads forward, and not behind the end of the program. -/
theorem link_places (hraw : Unlinked code) {i target : Nat} {instruction : Instruction}
    (hget : (link code)[i]? = some instruction) (htarget : instruction.target? = some target) :
    i < target ∧ target ≤ code.length := by
  rw [link, linkFrom_eq] at hget
  have hjumps := (@linkOnto_places code.length 0 code [] (by omega) hraw (List.forall_mem_nil _)).1
  have hplaces := hjumps i instruction target hget htarget
  omega

end Places

section Trailing

/-- Places that are the same, or both at the end of `size` instructions or behind it. -/
def SameEnd (size a b : Nat) : Prop := a = b ∨ (size ≤ a ∧ size ≤ b)

theorem sameEnd_orElse {a b : Option Nat} (h : Option.Rel (SameEnd size) a b)
    (raw : Option Nat) : Option.Rel (SameEnd size) (a <|> raw) (b <|> raw) := by
  cases h with
  | none =>
    cases raw with
    | none => exact .none
    | some target => exact .some (.inl rfl)
  | some h => exact .some h

/-- Instructions that are the same but for jumps to the end. -/
inductive Instruction.Alike (size : Nat) : Instruction → Instruction → Prop
  | operation (op : Operation) : Alike size (.operation op) (.operation op)
  | ifStart : Alike size .ifStart .ifStart
  | ifEnd : Alike size .ifEnd .ifEnd
  | thenJump {a b : Option Nat} (h : Option.Rel (SameEnd size) a b) :
      Alike size (.thenJump a) (.thenJump b)
  | elseJump {a b : Option Nat} (h : Option.Rel (SameEnd size) a b) :
      Alike size (.elseJump a) (.elseJump b)

namespace Level

structure Alike (size : Nat) (a b : Level) : Prop where
  onFalse : Option.Rel (SameEnd size) a.onFalse b.onFalse
  exit : SameEnd size a.exit b.exit

/-- The open level with a number; those that are not listed are closed by the end of the program. -/
def nth (size : Nat) (levels : List Level) (i : Nat) : Level := levels[i]?.getD (closedAt size)

theorem innermost_eq_nth (size : Nat) (levels : List Level) :
    innermost size levels = nth size levels 0 := by
  cases levels <;> rfl

theorem nth_tail (size : Nat) (levels : List Level) (i : Nat) :
    nth size levels.tail i = nth size levels (i + 1) := by
  rw [nth, List.getElem?_tail]
  rfl

def AllAlike (size : Nat) (levels longer : List Level) : Prop :=
  ∀ i, Alike size (nth size levels i) (nth (size + 1) longer i)

variable {longer : List Level}

theorem AllAlike.tail (h : AllAlike size levels longer) :
    AllAlike size levels.tail longer.tail := by
  intro i
  rw [nth_tail, nth_tail]
  exact h (i + 1)

theorem AllAlike.cons {a b : Level} (hab : Alike size a b) (h : AllAlike size levels longer) :
    AllAlike size (a :: levels) (b :: longer) := by
  intro i
  cases i with
  | zero => exact hab
  | succ i => exact h i

theorem closedAt_alike {a b : Nat} (h : SameEnd size a b) :
    Alike size (closedAt a) (closedAt b) :=
  ⟨.some h, h⟩

/-- One `%;` at the end: it closes the level that the end would have closed. -/
theorem allAlike_nil (size : Nat) : AllAlike size [] [closedAt size] := by
  intro i
  cases i with
  | zero => exact closedAt_alike (.inl rfl)
  | succ i => exact closedAt_alike (.inr ⟨Nat.le_refl size, Nat.le_succ size⟩)

end Level

theorem Instruction.link_alike {longer : List Level} (position : Nat) (instruction : Instruction)
    (h : Level.AllAlike size levels longer) :
    Alike size (instruction.link size position levels).1
        (instruction.link (size + 1) position longer).1 ∧
      Level.AllAlike size (instruction.link size position levels).2
        (instruction.link (size + 1) position longer).2 := by
  -- Only the innermost level is looked at, and it may be one that the end of the program closes.
  have hinnermost := h 0
  rw [← Level.innermost_eq_nth, ← Level.innermost_eq_nth] at hinnermost
  cases instruction with
  | operation op => exact ⟨.operation op, h⟩
  | ifStart => exact ⟨.ifStart, h.tail⟩
  | ifEnd => exact ⟨.ifEnd, h.cons (Level.closedAt_alike (.inl rfl))⟩
  | thenJump raw =>
    exact ⟨.thenJump (sameEnd_orElse hinnermost.onFalse raw), h.tail.cons ⟨.none, hinnermost.exit⟩⟩
  | elseJump raw =>
    exact ⟨.elseJump (.some hinnermost.exit), h.tail.cons ⟨.some (.inl rfl), hinnermost.exit⟩⟩

theorem linkOnto_alike {longer : List Level} (h : Level.AllAlike size levels longer) :
    List.Forall₂ (Instruction.Alike size) (linkOnto size position code levels).1
        (linkOnto (size + 1) position code longer).1 ∧
      Level.AllAlike size (linkOnto size position code levels).2
        (linkOnto (size + 1) position code longer).2 := by
  induction code generalizing position with
  | nil => exact ⟨.nil, h⟩
  | cons instruction rest ih =>
    obtain ⟨hrest, hlevels⟩ := @ih (position + 1)
    obtain ⟨hfirst, hlevels'⟩ := Instruction.link_alike position instruction hlevels
    exact ⟨.cons hfirst hrest, hlevels'⟩

/-- With a `%;` more at the end, only jumps to the end are linked in another way. -/
theorem link_concat_ifEnd (code : List Instruction) : ∃ linked,
    link (code ++ [.ifEnd]) = linked ++ [.ifEnd] ∧
      List.Forall₂ (Instruction.Alike code.length) (link code) linked := by
  refine ⟨(linkOnto (code.length + 1) 0 code [Level.closedAt code.length]).1, ?_, ?_⟩
  · rw [link, linkFrom_eq, linkOnto_append, List.length_append, Nat.zero_add]
    rfl
  · rw [link, linkFrom_eq]
    exact (linkOnto_alike (Level.allAlike_nil code.length)).1

theorem exists_alike {code : List Instruction} {i : Nat} (hi : i < code.length) :
    ∃ instruction instruction', (link code)[i]? = some instruction ∧
      (link (code ++ [.ifEnd]))[i]? = some instruction' ∧
      Instruction.Alike code.length instruction instruction' := by
  obtain ⟨linked, hlinked, halike⟩ := link_concat_ifEnd code
  have hlink : i < (link code).length := by rwa [length_link]
  have hlinked' : i < linked.length := by rwa [← halike.length_eq]
  refine ⟨_, _, List.getElem?_eq_getElem hlink, ?_, halike.get hlink hlinked'⟩
  rw [hlinked, List.getElem?_append_left hlinked']
  exact List.getElem?_eq_getElem hlinked'

theorem getElem?_link_concat_ifEnd (code : List Instruction) :
    (link (code ++ [.ifEnd]))[code.length]? = some .ifEnd := by
  obtain ⟨linked, hlinked, halike⟩ := link_concat_ifEnd code
  have hlength : linked.length = code.length := by
    rw [← halike.length_eq, length_link]
  rw [hlinked, List.getElem?_append_right (Nat.le_of_eq hlength), hlength, Nat.sub_self]
  rfl

end Trailing

end TerminalCaps.Template

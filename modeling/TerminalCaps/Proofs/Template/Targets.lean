import TerminalCaps.Proofs.Template.Levels
import TerminalCaps.Proofs.Template.Patching

/-!
The target of every jump, said by its place alone: a jump leads to the first part of a conditional that
is at its level, where places are at one level if as many conditionals are opened as are closed between
them.
-/
namespace TerminalCaps.Template

/-- The instructions between two places. -/
def between (code : List Instruction) (i j : Nat) : List Instruction :=
  (code.drop (i + 1)).take (j - (i + 1))

/-- As many conditionals are opened as are closed. -/
def Balanced (code : List Instruction) : Prop := code.count .ifStart = code.count .ifEnd

/-- The place `j` is behind `i` and at its level: what stands between them is balanced, and there is no
`%;` among it that is at the level of `i`. -/
def AtLevel (code : List Instruction) (i j : Nat) : Prop :=
  i < j ∧ Balanced (between code i j) ∧
    ∀ k, i < k → k < j → code[k]? = some .ifEnd → ¬ AtLevel code i k
termination_by j

def Instruction.isEnd : Instruction → Bool
  | .ifEnd => true
  | _ => false

/-- The parts of a conditional that stand between its start and its end, and the end. -/
def Instruction.isPart : Instruction → Bool
  | .thenJump _ | .elseJump _ | .ifEnd => true
  | _ => false

/-- The first instruction of a kind that is at the level of `i` is the one at `j`. -/
structure IsNext (code : List Instruction) (kind : Instruction → Bool) (i j : Nat)
    (found : Instruction) : Prop where
  atLevel : AtLevel code i j
  get : code[j]? = some found
  isKind : kind found
  first : ∀ k < j, AtLevel code i k → ∀ instruction ∈ code[k]?, ¬ kind instruction

/-- No instruction of a kind is at the level of `i`. -/
def HasNoNext (code : List Instruction) (kind : Instruction → Bool) (i : Nat) : Prop :=
  ∀ j, AtLevel code i j → ∀ instruction ∈ code[j]?, ¬ kind instruction

/-- What becomes of an instruction at `i` when its jump gets the target that it should have. -/
inductive Resolved (code : List Instruction) (i : Nat) : Instruction → Instruction → Prop
  | operation (op : Operation) : Resolved code i (.operation op) (.operation op)
  | ifStart : Resolved code i .ifStart .ifStart
  | ifEnd : Resolved code i .ifEnd .ifEnd
  /-- A taken branch goes on at the end of its level. -/
  | elseToEnd {raw : Option Nat} {j : Nat} (h : IsNext code Instruction.isEnd i j .ifEnd) :
      Resolved code i (.elseJump raw) (.elseJump (some j))
  | elseToExit {raw : Option Nat} (h : HasNoNext code Instruction.isEnd i) :
      Resolved code i (.elseJump raw) (.elseJump (some code.length))
  /-- A false condition goes on behind the `%e`. -/
  | thenToElse {raw other : Option Nat} {j : Nat}
      (h : IsNext code Instruction.isPart i j (.elseJump other)) :
      Resolved code i (.thenJump raw) (.thenJump (some (j + 1)))
  | thenToEnd {raw : Option Nat} {j : Nat} (h : IsNext code Instruction.isPart i j .ifEnd) :
      Resolved code i (.thenJump raw) (.thenJump (some j))
  | thenToExit {raw : Option Nat} (h : HasNoNext code Instruction.isPart i) :
      Resolved code i (.thenJump raw) (.thenJump (some code.length))
  /-- Before another `%t` the jump is left as it is. -/
  | thenKept {raw other : Option Nat} {j : Nat}
      (h : IsNext code Instruction.isPart i j (.thenJump other)) :
      Resolved code i (.thenJump raw) (.thenJump raw)

section Depths

/-- How many conditionals are open after an instruction inside of a level, none if it closes the level
itself. -/
def Instruction.depth? : Nat → Instruction → Option Nat
  | depth, .ifStart => some (depth + 1)
  | 0, .ifEnd => none
  | depth + 1, .ifEnd => some depth
  | depth, _ => some depth

/-- The instructions close `depth` conditionals besides those that they open, but not the level around
them. -/
def Leaves : Nat → List Instruction → Prop
  | depth, [] => depth = 0
  | depth, instruction :: code => ∃ next, instruction.depth? depth = some next ∧ Leaves next code

variable {depth next : Nat} {instruction : Instruction} {code : List Instruction}

theorem leaves_cons (h : instruction.depth? depth = some next) :
    Leaves depth (instruction :: code) ↔ Leaves next code := by
  simp [Leaves, h]

theorem depth?_eq_none_iff : instruction.depth? depth = none ↔ depth = 0 ∧ instruction = .ifEnd := by
  cases depth <;> cases instruction <;> simp [Instruction.depth?]

/-- The depth counts what an instruction opens and closes. -/
theorem count_of_depth? (h : instruction.depth? depth = some next) :
    [instruction].count .ifStart + depth = [instruction].count .ifEnd + next := by
  cases depth <;> cases instruction <;> simp [Instruction.depth?] at h <;> simp [h] <;> omega

theorem leaves_iff : Leaves depth code ↔ code.count .ifStart + depth = code.count .ifEnd ∧
    ∀ k, code[k]? = some .ifEnd → ¬ Leaves depth (code.take k) := by
  induction code generalizing depth with
  | nil => simp [Leaves]
  | cons instruction code ih =>
    have hcount (other : Instruction) :
        (instruction :: code).count other = [instruction].count other + code.count other := by
      rw [← List.count_append, List.singleton_append]
    rw [hcount, hcount, ← Nat.and_forall_add_one]
    simp only [List.getElem?_cons_zero, List.take_zero, List.getElem?_cons_succ,
      List.take_succ_cons]
    cases hnext : instruction.depth? depth with
    | none =>
      obtain ⟨rfl, rfl⟩ := depth?_eq_none_iff.1 hnext
      simp [Leaves, Instruction.depth?]
    | some next =>
      have hdepth : instruction = .ifEnd → depth ≠ 0 := by
        intro hend hzero
        rw [depth?_eq_none_iff.2 ⟨hzero, hend⟩] at hnext
        cases hnext
      have hsum := count_of_depth? hnext
      simp only [leaves_cons hnext]
      rw [ih]
      constructor
      · rintro ⟨hbalance, hopen⟩
        refine ⟨by omega, fun hend => hdepth (Option.some.inj hend), hopen⟩
      · rintro ⟨hbalance, -, hopen⟩
        exact ⟨by omega, hopen⟩

theorem take_between {i j k : Nat} (h : i + 1 + k ≤ j) :
    (between code i j).take k = between code i (i + 1 + k) := by
  rw [between, between, List.take_take]
  congr 1
  omega

/-- The level of a place in terms of what stands behind it. -/
theorem atLevel_iff {i j : Nat} : AtLevel code i j ↔ i < j ∧ Leaves 0 (between code i j) := by
  induction j using Nat.strongRecOn with
  | ind j ih =>
    rw [AtLevel, leaves_iff, Nat.add_zero]
    refine and_congr_right fun hij => and_congr_right fun _ => ?_
    constructor
    · intro h k hget
      have hk : k < j - (i + 1) := by
        by_contra hlarge
        rw [between, List.getElem?_take, if_neg hlarge] at hget
        cases hget
      rw [between, List.getElem?_take_of_lt hk, List.getElem?_drop] at hget
      have hnot := h (i + 1 + k) (by omega) (by omega) hget
      rw [ih (i + 1 + k) (by omega)] at hnot
      rw [take_between (by omega)]
      exact fun hleaves => hnot ⟨by omega, hleaves⟩
    · intro h k hik hkj hget
      obtain ⟨k, rfl⟩ := Nat.exists_eq_add_of_le (Nat.succ_le_of_lt hik)
      rw [ih _ hkj, ← take_between (Nat.le_of_lt hkj)]
      refine fun hlevel => h k ?_ hlevel.2
      rwa [between, List.getElem?_take_of_lt (by omega), List.getElem?_drop]

end Depths

section Search

variable {kind : Instruction → Bool} {depth next k : Nat} {instruction found : Instruction}
  {code : List Instruction}

/-- The first instruction of a kind that is at the level around the given ones, and its number. -/
def next? (kind : Instruction → Bool) : Nat → List Instruction → Option (Nat × Instruction)
  | _, [] => none
  | depth, instruction :: code =>
    if depth = 0 ∧ kind instruction then some (0, instruction)
    else ((instruction.depth? depth).bind fun next => next? kind next code).map
      fun place => (place.1 + 1, place.2)

/-- The instruction with a number is the first of a kind that is at the level around. -/
structure IsFirst (kind : Instruction → Bool) (depth : Nat) (code : List Instruction) (k : Nat)
    (found : Instruction) : Prop where
  leaves : Leaves depth (code.take k)
  get : code[k]? = some found
  isKind : kind found
  first : ∀ i < k, Leaves depth (code.take i) → ∀ instruction ∈ code[i]?, ¬ kind instruction

theorem leaves_take_succ (h : instruction.depth? depth = some next) (k : Nat) :
    Leaves depth ((instruction :: code).take (k + 1)) ↔ Leaves next (code.take k) := by
  rw [List.take_succ_cons, leaves_cons h]

theorem isFirst_zero : IsFirst kind depth (instruction :: code) 0 found ↔
    (depth = 0 ∧ kind instruction) ∧ found = instruction := by
  constructor
  · intro h
    have hget : instruction = found := Option.some.inj h.get
    exact ⟨⟨h.leaves, hget ▸ h.isKind⟩, hget.symm⟩
  · rintro ⟨⟨rfl, hkind⟩, rfl⟩
    exact ⟨rfl, rfl, hkind, fun i hi => absurd hi (Nat.not_lt_zero i)⟩

theorem isFirst_succ (hfirst : ¬ (depth = 0 ∧ kind instruction)) :
    IsFirst kind depth (instruction :: code) (k + 1) found ↔
      ∃ next, instruction.depth? depth = some next ∧ IsFirst kind next code k found := by
  constructor
  · intro h
    obtain ⟨next, hnext, hleaves⟩ := h.leaves
    refine ⟨next, hnext, hleaves, h.get, h.isKind, ?_⟩
    intro i hi hlevel
    exact h.first (i + 1) (Nat.succ_lt_succ hi) ((leaves_take_succ hnext i).2 hlevel)
  · rintro ⟨next, hnext, h⟩
    refine ⟨(leaves_take_succ hnext k).2 h.leaves, h.get, h.isKind, ?_⟩
    intro i hi hlevel
    cases i with
    | zero =>
      rintro other ⟨⟩
      exact fun hkind => hfirst ⟨hlevel, hkind⟩
    | succ i =>
      exact h.first i (Nat.lt_of_succ_lt_succ hi) ((leaves_take_succ hnext i).1 hlevel)

theorem next?_eq_some_iff :
    next? kind depth code = some (k, found) ↔ IsFirst kind depth code k found := by
  induction code generalizing depth k with
  | nil =>
    constructor
    · intro h
      cases h
    · intro h
      have hget := h.get
      simp at hget
  | cons instruction code ih =>
    rw [next?]
    split
    · next hfirst =>
      cases k with
      | zero => simp [isFirst_zero, hfirst, eq_comm]
      | succ k =>
        constructor
        · intro h
          simp at h
        · intro h
          exact absurd hfirst.2 (h.first 0 (Nat.succ_pos k) hfirst.1 instruction rfl)
    · next hfirst =>
      cases k with
      | zero =>
        constructor
        · intro h
          obtain ⟨place, -, hplace⟩ := Option.map_eq_some_iff.1 h
          simp at hplace
        · intro h
          exact absurd (isFirst_zero.1 h).1 hfirst
      | succ k =>
        rw [isFirst_succ hfirst]
        simp only [Option.map_eq_some_iff, Option.bind_eq_some_iff, ← ih, Prod.exists,
          Prod.mk.injEq, Nat.add_right_cancel_iff]
        constructor
        · rintro ⟨_, _, ⟨next, hnext, hfound⟩, rfl, rfl⟩
          exact ⟨next, hnext, hfound⟩
        · rintro ⟨next, hnext, hfound⟩
          exact ⟨_, _, ⟨next, hnext, hfound⟩, rfl, rfl⟩

/-- There is none of the kind if no place at the level has it. -/
theorem next?_eq_none_iff : next? kind depth code = none ↔
    ∀ k, Leaves depth (code.take k) → ∀ instruction ∈ code[k]?, ¬ kind instruction := by
  constructor
  · intro h k
    induction k using Nat.strongRecOn with
    | ind k ih =>
      intro hleaves instruction hget hkind
      have hfound := next?_eq_some_iff.2 ⟨hleaves, hget, hkind, ih⟩
      rw [h] at hfound
      cases hfound
  · intro h
    cases hfound : next? kind depth code with
    | none => rfl
    | some place =>
      obtain ⟨hleaves, hget, hkind, -⟩ := next?_eq_some_iff.1 hfound
      exact absurd hkind (h place.1 hleaves place.2 hget)

end Search

section Levels

variable {size position depth next : Nat} {instruction : Instruction} {code : List Instruction}

/-- Where a false condition goes on, by the first part of its level. -/
def falseTarget (size position : Nat) : Option (Nat × Instruction) → Option Nat
  | none => some size
  | some (k, .elseJump _) => some (position + k + 1)
  | some (_, .thenJump _) => none
  | some (k, _) => some (position + k)

/-- The level does not change at an instruction that is no part of it. -/
theorem levelAt_cons (h : instruction.depth? depth = some next)
    (hpart : ¬ (depth = 0 ∧ instruction.isPart)) :
    levelAt size position depth (instruction :: code) = levelAt size (position + 1) next code := by
  cases instruction with
  | operation op => cases depth <;> cases h <;> rfl
  | ifStart => cases depth <;> cases h <;> rw [levelAt_ifStart]
  | ifEnd =>
    cases depth <;> cases h
    rw [levelAt_ifEnd_succ]
  | thenJump raw =>
    cases depth <;> cases h
    · exact absurd ⟨rfl, rfl⟩ hpart
    · rw [levelAt_thenJump_succ]
  | elseJump raw =>
    cases depth <;> cases h
    · exact absurd ⟨rfl, rfl⟩ hpart
    · rw [levelAt_elseJump_succ]

theorem exit_cons (h : instruction.depth? depth = some next) :
    (levelAt size position depth (instruction :: code)).exit =
      (levelAt size (position + 1) next code).exit := by
  by_cases hpart : depth = 0 ∧ instruction.isPart
  · obtain ⟨rfl, hpart⟩ := hpart
    cases instruction <;> cases hpart <;> cases h
    · exact exit_levelAt_thenJump
    · exact exit_levelAt_elseJump
  · rw [levelAt_cons h hpart]

theorem exit_levelAt : (levelAt size position depth code).exit =
    ((next? Instruction.isEnd depth code).map (position + ·.1)).getD size := by
  induction code generalizing position depth with
  | nil => rfl
  | cons instruction code ih =>
    cases hnext : instruction.depth? depth with
    | none =>
      obtain ⟨rfl, rfl⟩ := depth?_eq_none_iff.1 hnext
      rfl
    | some next =>
      have hfirst : ¬ (depth = 0 ∧ instruction.isEnd) := by
        rintro ⟨rfl, hend⟩
        cases instruction <;> cases hend
        cases hnext
      rw [exit_cons hnext, ih, next?, if_neg hfirst, hnext, Option.bind_some]
      cases next? Instruction.isEnd next code with
      | none => rfl
      | some place => simp; omega

theorem onFalse_levelAt : (levelAt size position depth code).onFalse =
    falseTarget size position (next? Instruction.isPart depth code) := by
  induction code generalizing position depth with
  | nil => rfl
  | cons instruction code ih =>
    by_cases hfirst : depth = 0 ∧ instruction.isPart
    · obtain ⟨rfl, hpart⟩ := hfirst
      cases instruction <;> cases hpart
      · rw [levelAt_thenJump_zero]
        rfl
      · rw [levelAt_elseJump_zero]
        rfl
      · rfl
    · cases hnext : instruction.depth? depth with
      | none =>
        obtain ⟨rfl, rfl⟩ := depth?_eq_none_iff.1 hnext
        exact absurd ⟨rfl, rfl⟩ hfirst
      | some next =>
        have hshift (k : Nat) : position + 1 + k = position + (k + 1) := by omega
        rw [levelAt_cons hnext hfirst, ih, next?, if_neg hfirst, hnext, Option.bind_some]
        cases next? Instruction.isPart next code with
        | none => rfl
        | some place =>
          obtain ⟨k, found⟩ := place
          cases found <;> simp [falseTarget, hshift]

end Levels

section Places

variable {kind : Instruction → Bool} {before rest : List Instruction}
  {instruction found linked : Instruction} {j : Nat}

theorem getElem?_behind (before rest : List Instruction) (instruction : Instruction) (k : Nat) :
    (before ++ instruction :: rest)[before.length + 1 + k]? = rest[k]? := by
  rw [List.getElem?_append_right (by omega)]
  have hk : before.length + 1 + k - before.length = k + 1 := by omega
  rw [hk, List.getElem?_cons_succ]

theorem atLevel_behind_iff : AtLevel (before ++ instruction :: rest) before.length j ↔
    ∃ k, j = before.length + 1 + k ∧ Leaves 0 (rest.take k) := by
  have hdrop : (before ++ instruction :: rest).drop (before.length + 1) = rest := by simp
  rw [atLevel_iff, between, hdrop]
  constructor
  · rintro ⟨hlt, hleaves⟩
    exact ⟨j - (before.length + 1), by omega, hleaves⟩
  · rintro ⟨k, rfl, hleaves⟩
    refine ⟨by omega, ?_⟩
    rwa [Nat.add_sub_cancel_left]

theorem isNext_iff : IsNext (before ++ instruction :: rest) kind before.length j found ↔
    ∃ k, j = before.length + 1 + k ∧ next? kind 0 rest = some (k, found) := by
  simp only [next?_eq_some_iff]
  constructor
  · intro h
    obtain ⟨k, rfl, hleaves⟩ := atLevel_behind_iff.1 h.atLevel
    refine ⟨k, rfl, hleaves, getElem?_behind .. ▸ h.get, h.isKind, ?_⟩
    intro i hi hlevel
    rw [← getElem?_behind before rest instruction i]
    exact h.first _ (by omega) (atLevel_behind_iff.2 ⟨i, rfl, hlevel⟩)
  · rintro ⟨k, rfl, h⟩
    refine ⟨atLevel_behind_iff.2 ⟨k, rfl, h.leaves⟩, (getElem?_behind ..).trans h.get, h.isKind, ?_⟩
    intro i hi hlevel
    obtain ⟨i, rfl, hleaves⟩ := atLevel_behind_iff.1 hlevel
    rw [getElem?_behind]
    exact h.first i (by omega) hleaves

theorem hasNoNext_iff : HasNoNext (before ++ instruction :: rest) kind before.length ↔
    next? kind 0 rest = none := by
  rw [next?_eq_none_iff]
  constructor
  · intro h k hleaves
    rw [← getElem?_behind before rest instruction k]
    exact h _ (atLevel_behind_iff.2 ⟨k, rfl, hleaves⟩)
  · intro h j hlevel
    obtain ⟨k, rfl, hleaves⟩ := atLevel_behind_iff.1 hlevel
    rw [getElem?_behind]
    exact h k hleaves

theorem kind_of_next? {k : Nat} (h : next? kind 0 rest = some (k, found)) : kind found :=
  (next?_eq_some_iff.1 h).isKind

/-- A `%e` goes on at the end of its level, or at the end of the program if its level has none. -/
theorem resolved_elseJump_iff {raw : Option Nat} :
    Resolved (before ++ instruction :: rest) before.length (.elseJump raw) linked ↔
      linked = .elseJump (some (((next? Instruction.isEnd 0 rest).map
        (before.length + 1 + ·.1)).getD (before ++ instruction :: rest).length)) := by
  constructor
  · intro h
    cases h with
    | elseToEnd h =>
      obtain ⟨k, rfl, hnext⟩ := isNext_iff.1 h
      rw [hnext]
      rfl
    | elseToExit h =>
      rw [hasNoNext_iff.1 h]
      rfl
  · rintro rfl
    cases hnext : next? Instruction.isEnd 0 rest with
    | none => exact .elseToExit (hasNoNext_iff.2 hnext)
    | some place =>
      obtain ⟨k, found⟩ := place
      have hend := kind_of_next? hnext
      cases found <;> cases hend
      exact .elseToEnd (isNext_iff.2 ⟨k, rfl, hnext⟩)

/-- A `%t` goes on at the first part of its level, or keeps its target if that part is a `%t`. -/
theorem resolved_thenJump_iff {raw : Option Nat} :
    Resolved (before ++ instruction :: rest) before.length (.thenJump raw) linked ↔
      linked = .thenJump (falseTarget (before ++ instruction :: rest).length (before.length + 1)
        (next? Instruction.isPart 0 rest) <|> raw) := by
  constructor
  · intro h
    cases h with
    | thenToElse h | thenToEnd h | thenKept h =>
      obtain ⟨k, rfl, hnext⟩ := isNext_iff.1 h
      rw [hnext]
      rfl
    | thenToExit h =>
      rw [hasNoNext_iff.1 h]
      rfl
  · rintro rfl
    cases hnext : next? Instruction.isPart 0 rest with
    | none => exact .thenToExit (hasNoNext_iff.2 hnext)
    | some place =>
      obtain ⟨k, found⟩ := place
      have hpart := kind_of_next? hnext
      cases found <;> cases hpart
      · exact .thenKept (isNext_iff.2 ⟨k, rfl, hnext⟩)
      · exact .thenToElse (isNext_iff.2 ⟨k, rfl, hnext⟩)
      · exact .thenToEnd (isNext_iff.2 ⟨k, rfl, hnext⟩)

/-- The linked instruction is the one whose target is found by levels. -/
theorem resolved_iff : Resolved (before ++ instruction :: rest) before.length instruction linked ↔
    linked = (instruction.link (before ++ instruction :: rest).length before.length
      (linkOnto (before ++ instruction :: rest).length (before.length + 1) rest []).2).1 := by
  cases instruction with
  | operation op =>
    constructor
    · rintro ⟨⟩
      rfl
    · rintro rfl
      exact .operation op
  | ifStart =>
    constructor
    · rintro ⟨⟩
      rfl
    · rintro rfl
      exact .ifStart
  | ifEnd =>
    constructor
    · rintro ⟨⟩
      rfl
    · rintro rfl
      exact .ifEnd
  | elseJump raw => rw [link_elseJump, exit_levelAt, resolved_elseJump_iff]
  | thenJump raw => rw [link_thenJump_orElse, onFalse_levelAt, resolved_thenJump_iff]

end Places

/-- Linking, which is one pass over the instructions, gives every jump the target that its level says
and changes nothing else. A `%t` is left without a target exactly if the first part of its level behind
it is another `%t`. -/
theorem link_targets (code : List Instruction) :
    linkInOnePass code = link code ∧ (link code).length = code.length ∧
    (∀ i linked, (link code)[i]? = some linked ↔
      ∃ instruction, code[i]? = some instruction ∧ Resolved code i instruction linked) ∧
    ∀ i, (link code)[i]? = some (.thenJump none) ↔ code[i]? = some (.thenJump none) ∧
      ∃ j other, IsNext code Instruction.isPart i j (.thenJump other) := by
  have hresolved : ∀ i linked, (link code)[i]? = some linked ↔
      ∃ instruction, code[i]? = some instruction ∧ Resolved code i instruction linked := by
    intro i linked
    cases hget : code[i]? with
    | none =>
      have hsize := List.getElem?_eq_none_iff.1 hget
      rw [List.getElem?_eq_none (by rwa [length_link])]
      simp
    | some instruction =>
      obtain ⟨hi, rfl⟩ := List.getElem?_eq_some_iff.1 hget
      have hsplit : code.take i ++ code[i] :: code.drop (i + 1) = code := by
        rw [List.getElem_cons_drop, List.take_append_drop]
      have hlength : (code.take i).length = i := List.length_take_of_le (Nat.le_of_lt hi)
      have hlinked := getElem?_link (code.take i) (code.drop (i + 1)) code[i]
      have hresolved := @resolved_iff (code.take i) (code.drop (i + 1)) code[i] linked
      rw [hsplit, hlength] at hlinked hresolved
      simp [hlinked, hresolved, eq_comm]
  refine ⟨linkInOnePass_eq code, length_link code, hresolved, ?_⟩
  intro i
  rw [hresolved]
  constructor
  · rintro ⟨instruction, hget, hinstruction⟩
    cases hinstruction with
    | thenKept h => exact ⟨hget, _, _, h⟩
  · rintro ⟨hget, j, other, h⟩
    exact ⟨_, hget, .thenKept h⟩

/-- Parts that stand outside of all conditionals, and a conditional that is not closed. -/
example : link [.thenJump none, .ifEnd, .elseJump none, .ifStart, .thenJump none, .thenJump none] =
    [.thenJump (some 1), .ifEnd, .elseJump (some 6), .ifStart, .thenJump none, .thenJump (some 6)] := by
  decide

end TerminalCaps.Template

import TerminalCaps.Proofs.Template.Jumps

/-!
The levels of a list of instructions, found by counting `%?` and `%;`. Linking gives the jumps of a
level the places that a count of the instructions behind them gives.
-/
namespace TerminalCaps.Template

/-- The instructions of a level up to the `%;` that closes it, without the conditionals inside of the
level, of which `depth` are open in the beginning. -/
def sameLevel : Nat → List Instruction → List Instruction
  | _, [] => []
  | depth, .ifStart :: rest => sameLevel (depth + 1) rest
  | 0, .ifEnd :: _ => [.ifEnd]
  | depth + 1, .ifEnd :: rest => sameLevel depth rest
  | 0, instruction :: rest => instruction :: sameLevel 0 rest
  | depth + 1, _ :: rest => sameLevel (depth + 1) rest

def Instruction.isThen : Instruction → Bool
  | .thenJump _ => true
  | _ => false

/-- The parts at which the body of a condition ends: `%e` and `%;`. -/
def Instruction.endsBody : Instruction → Bool
  | .elseJump _ | .ifEnd => true
  | _ => false

/-- The level has a `%e` or `%;` ahead. -/
def EndsAhead (depth : Nat) (code : List Instruction) : Prop :=
  (sameLevel depth code).any Instruction.endsBody

/-- The level has a `%t` ahead, before its first `%e` or `%;`. -/
def ThenAhead (depth : Nat) (code : List Instruction) : Prop :=
  ((sameLevel depth code).takeWhile (!·.endsBody)).any Instruction.isThen

instance (depth : Nat) (code : List Instruction) : Decidable (EndsAhead depth code) :=
  inferInstanceAs (Decidable (_ = _))

instance (depth : Nat) (code : List Instruction) : Decidable (ThenAhead depth code) :=
  inferInstanceAs (Decidable (_ = _))

/-- The level around a place that is found when `depth` levels inside of it have been left. -/
def levelAt (size position depth : Nat) (code : List Instruction) : Level :=
  Level.nth size (linkOnto size position code []).2 depth

section Levels

variable {size position depth : Nat} {code : List Instruction} {raw : Option Nat}

theorem levelAt_nil : levelAt size position depth [] = Level.closedAt size := rfl

theorem levelAt_operation (op : Operation) : levelAt size position depth (.operation op :: code) =
    levelAt size (position + 1) depth code := rfl

theorem levelAt_ifStart : levelAt size position depth (.ifStart :: code) =
    levelAt size (position + 1) (depth + 1) code :=
  Level.nth_tail _ _ _

theorem levelAt_ifEnd_zero :
    levelAt size position 0 (.ifEnd :: code) = Level.closedAt position := rfl

theorem levelAt_ifEnd_succ : levelAt size position (depth + 1) (.ifEnd :: code) =
    levelAt size (position + 1) depth code := rfl

theorem levelAt_thenJump_zero : levelAt size position 0 (.thenJump raw :: code) =
    { levelAt size (position + 1) 0 code with onFalse := none } := by
  rw [levelAt, levelAt, ← Level.innermost_eq_nth size (linkOnto size (position + 1) code []).2]
  rfl

theorem levelAt_thenJump_succ : levelAt size position (depth + 1) (.thenJump raw :: code) =
    levelAt size (position + 1) (depth + 1) code :=
  Level.nth_tail _ _ _

theorem levelAt_elseJump_zero : levelAt size position 0 (.elseJump raw :: code) =
    { levelAt size (position + 1) 0 code with onFalse := some (position + 1) } := by
  rw [levelAt, levelAt, ← Level.innermost_eq_nth size (linkOnto size (position + 1) code []).2]
  rfl

theorem levelAt_elseJump_succ : levelAt size position (depth + 1) (.elseJump raw :: code) =
    levelAt size (position + 1) (depth + 1) code :=
  Level.nth_tail _ _ _

/-! Jumps move no level's end. -/

theorem exit_levelAt_thenJump : (levelAt size position depth (.thenJump raw :: code)).exit =
    (levelAt size (position + 1) depth code).exit := by
  cases depth with
  | zero => rw [levelAt_thenJump_zero]
  | succ depth => rw [levelAt_thenJump_succ]

theorem exit_levelAt_elseJump : (levelAt size position depth (.elseJump raw :: code)).exit =
    (levelAt size (position + 1) depth code).exit := by
  cases depth with
  | zero => rw [levelAt_elseJump_zero]
  | succ depth => rw [levelAt_elseJump_succ]

/-- A false condition has its place at the level unless a later `%t` has claimed it. -/
theorem onFalse_eq_none_iff :
    (levelAt size position depth code).onFalse = none ↔ ThenAhead depth code := by
  unfold ThenAhead
  induction code generalizing position depth with
  | nil => simp [levelAt_nil, Level.closedAt, sameLevel]
  | cons instruction code ih =>
    cases instruction with
    | operation op =>
      rw [levelAt_operation, ih]
      cases depth with
      | zero => simp [sameLevel, Instruction.endsBody, Instruction.isThen]
      | succ depth => rfl
    | ifStart => rw [levelAt_ifStart, ih, sameLevel]
    | ifEnd =>
      cases depth with
      | zero => simp [levelAt_ifEnd_zero, Level.closedAt, sameLevel, Instruction.endsBody]
      | succ depth => rw [levelAt_ifEnd_succ, ih, sameLevel]
    | thenJump raw =>
      cases depth with
      | zero => simp [levelAt_thenJump_zero, sameLevel, Instruction.endsBody, Instruction.isThen]
      | succ depth => rw [levelAt_thenJump_succ, ih]; rfl
    | elseJump raw =>
      cases depth with
      | zero => simp [levelAt_elseJump_zero, sameLevel, Instruction.endsBody]
      | succ depth => rw [levelAt_elseJump_succ, ih]; rfl

end Levels

section Places

/-- The instruction at a place of a linked list, by what follows it. -/
theorem getElem?_link (before rest : List Instruction) (instruction : Instruction) :
    (link (before ++ instruction :: rest))[before.length]? =
      some (instruction.link (before ++ instruction :: rest).length before.length
        (linkOnto (before ++ instruction :: rest).length (before.length + 1) rest []).2).1 := by
  rw [link, linkFrom_eq, linkOnto_append]
  simp only [Nat.zero_add]
  rw [List.getElem?_append_right (Nat.le_of_eq length_linkOnto), length_linkOnto, Nat.sub_self]
  rfl

variable (size position : Nat) (rest : List Instruction)

/-- A `%t` keeps its own target where its level has none for it. -/
theorem link_thenJump_orElse (raw : Option Nat) :
    (Instruction.link size position (linkOnto size (position + 1) rest []).2 (.thenJump raw)).1 =
      .thenJump ((levelAt size (position + 1) 0 rest).onFalse <|> raw) := by
  rw [levelAt, ← Level.innermost_eq_nth]
  rfl

theorem link_thenJump :
    (Instruction.link size position (linkOnto size (position + 1) rest []).2 (.thenJump none)).1 =
      .thenJump (levelAt size (position + 1) 0 rest).onFalse := by
  rw [link_thenJump_orElse]
  cases (levelAt size (position + 1) 0 rest).onFalse <;> rfl

theorem link_elseJump (raw : Option Nat) :
    (Instruction.link size position (linkOnto size (position + 1) rest []).2 (.elseJump raw)).1 =
      .elseJump (some (levelAt size (position + 1) 0 rest).exit) := by
  rw [levelAt, ← Level.innermost_eq_nth]
  rfl

end Places

end TerminalCaps.Template

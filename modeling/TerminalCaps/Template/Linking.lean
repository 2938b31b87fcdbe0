import TerminalCaps.Template.Instruction

/-!
Jump targets. A list of instructions is linked from its end: what a jump needs is then known, one
`Level` for each conditional that is still open to the right, the innermost first. Outside of all
conditionals, the end of the list closes every level.
-/
namespace TerminalCaps.Template

/-- Where the jumps of a level go: `exit` is the `%;` that closes it, or the end of the program, and
`onFalse` the place where a false condition goes on, unless a later `%t` claims it. -/
structure Level where
  onFalse : Option Nat
  exit : Nat
  deriving DecidableEq, Repr

namespace Level

/-- The level that is closed at a position. -/
def closedAt (position : Nat) : Level := ⟨some position, position⟩

/-- The innermost of the open levels; the end of the program closes those that are not listed. -/
def innermost (size : Nat) (levels : List Level) : Level := levels.headD (closedAt size)

end Level

open Level in
/-- An instruction at `position` with its target, and the levels open before it. -/
def Instruction.link (size position : Nat) (levels : List Level) :
    Instruction → Instruction × List Level
  | .operation op => (.operation op, levels)
  | .ifStart => (.ifStart, levels.tail)
  | .ifEnd => (.ifEnd, closedAt position :: levels)
  | .thenJump target =>
    let level := innermost size levels
    (.thenJump (level.onFalse <|> target), { level with onFalse := none } :: levels.tail)
  | .elseJump _ =>
    let level := innermost size levels
    (.elseJump (some level.exit), { level with onFalse := some (position + 1) } :: levels.tail)

/-- The instructions from `position` to the end of a program of `size` instructions with their
targets, and the levels open before them. -/
def linkFrom (size : Nat) : Nat → List Instruction → List Instruction × List Level
  | _, [] => ([], [])
  | position, instruction :: rest =>
    let (linked, levels) := linkFrom size (position + 1) rest
    let (instruction, levels) := instruction.link size position levels
    (instruction :: linked, levels)

/-- The instructions with the targets of all jumps. -/
def link (instructions : List Instruction) : List Instruction :=
  (linkFrom instructions.length 0 instructions).1

@[simp] theorem length_linkFrom (size position : Nat) (instructions : List Instruction) :
    (linkFrom size position instructions).1.length = instructions.length := by
  induction instructions generalizing position with
  | nil => rfl
  | cons instruction rest ih => simp [linkFrom, ih]

@[simp] theorem length_link (instructions : List Instruction) :
    (link instructions).length = instructions.length := by
  simp [link]

end TerminalCaps.Template

import TerminalCaps.Template.Escape
import TerminalCaps.Template.Linking

/-! Programs: parameterized strings read once, ready to run any number of times. -/
namespace TerminalCaps.Template

/-- The instructions of a template, the jumps still without targets: the text between escapes in the
longest runs, and each escape that stands for something. -/
def readInstructions (template : Bytes) : List Instruction :=
  match template with
  | [] => []
  | b :: rest =>
    if b = '%'.toUInt8 then
      let reading := readEscape rest
      reading.1.toList ++ readInstructions reading.2
    else
      .operation (.literal (b :: rest.takeWhile (· != '%'.toUInt8))) ::
        readInstructions (rest.dropWhile (· != '%'.toUInt8))
termination_by template.length
decreasing_by
  · exact Nat.lt_succ_of_le (readEscape_suffix rest).length_le
  · exact Nat.lt_succ_of_le (List.dropWhile_suffix _).length_le

theorem readInstructions_percent (rest : Bytes) : readInstructions ('%'.toUInt8 :: rest) =
    (readEscape rest).1.toList ++ readInstructions (readEscape rest).2 := by
  rw [readInstructions, if_pos rfl]

/-- A compiled template. -/
structure Program where
  instructions : Array Instruction
  deriving DecidableEq, Repr

namespace Program

def size (p : Program) : Nat := p.instructions.size

def compile (template : Bytes) : Program := ⟨(link (readInstructions template)).toArray⟩

end Program
end TerminalCaps.Template

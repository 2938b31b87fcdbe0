import TerminalCaps.Entry.Basic
import TerminalCaps.Expansion.Machine

/-! Sessions: the static variables that expansions for one terminal share. -/
namespace TerminalCaps.Expansion

open Template (Program)

structure Session where
  statics : Variables
  deriving DecidableEq, Repr

namespace Session

/-- A session in which nothing has been stored. -/
def initial : Session := ⟨.initial⟩

/-- The session with its static variables as in the beginning. -/
def reset (_ : Session) : Session := initial

/-- The output of a program, and the session after it. -/
def run (s : Session) (p : Program) (parameters : List Parameter) :
    Except ExpansionError (Bytes × Session) := do
  let (output, m) ← p.run (.start s.statics parameters)
  return (output, ⟨m.statics⟩)

/-- The output of a template, and the session after it. -/
def expand (s : Session) (template : Bytes) (parameters : List Parameter) :
    Except ExpansionError (Bytes × Session) :=
  s.run (.compile template) parameters

/-- As `expand` for a string capability of an entry; there is no output if the entry lacks it. -/
def expandCapability (s : Session) (e : Entry) (c : Capability .string)
    (parameters : List Parameter) : Except ExpansionError (Option Bytes × Session) :=
  match e.string c with
  | none => .ok (none, s)
  | some template => do
    let (output, s) ← s.expand template parameters
    return (some output, s)

end Session
end TerminalCaps.Expansion

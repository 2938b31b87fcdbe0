import Mathlib.Data.List.TakeWhile
import TerminalCaps.Proofs.Bytes.Utf8
import TerminalCaps.Search.Locate

/-!
How the directories to search are put together. Behind the directory of the user, who may have none,
the parts of a list are taken one by one, and an empty part takes the directories of the system. They
are taken once, so a later empty part adds nothing.
-/
namespace TerminalCaps

namespace Bytes

variable {separator : UInt8} {bytes : Bytes} {parts : List Bytes}

end Bytes

namespace Search

variable {env : Environment} {parts before after : List Path}

/-- The directories taken so far, and those of the system that wait for an empty part. -/
structure Gathering where
  taken : List Path
  waiting : List Path := systemDirectories

namespace Gathering

variable {g : Gathering}

def drain (g : Gathering) : Gathering := ⟨g.taken ++ g.waiting, []⟩

def visit (g : Gathering) (part : Path) : Gathering :=
  if part = [] then g.drain else { g with taken := g.taken ++ [part] }

end Gathering

end Search
end TerminalCaps

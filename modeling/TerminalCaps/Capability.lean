import TerminalCaps.Capability.Names

/-! Standard capabilities: of each kind, a name for every position of the entry's section. -/
namespace TerminalCaps

namespace Capability

inductive Kind where
  | boolean | number | string
  deriving DecidableEq, Repr

/-- The short names of a kind, by position. -/
def Kind.names : Kind → List Bytes
  | .boolean => booleanNames
  | .number => numberNames
  | .string => stringNames

end Capability

/-- A standard capability, given by its position among those of its kind. -/
structure Capability (kind : Capability.Kind) where
  position : Fin kind.names.length
  deriving DecidableEq

namespace Capability

variable {kind : Kind}

def name (c : Capability kind) : Bytes := kind.names[c.position]

/-- The capability at a position, if there is one. -/
def ofPosition? (kind : Kind) (position : Nat) : Option (Capability kind) :=
  if h : position < kind.names.length then some ⟨position, h⟩ else none

/-- The capability with a short name, if there is one. -/
def ofName? (kind : Kind) (name : Bytes) : Option (Capability kind) :=
  (kind.names.finIdxOf? name).map Capability.mk

end Capability
end TerminalCaps

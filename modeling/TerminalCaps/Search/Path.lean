import TerminalCaps.Bytes

/-! Paths as byte strings: their components, and one path put below another. -/
namespace TerminalCaps

abbrev Path := Bytes

namespace Path

def IsAbsolute (p : Path) : Prop := p.head? = some '/'.toUInt8

instance (p : Path) : Decidable p.IsAbsolute := inferInstanceAs (Decidable (_ = _))

/-- The path `p` below `base`. An absolute one does not depend on the base. -/
def join (base p : Path) : Path :=
  if p.IsAbsolute then p
  else if base = [] ∨ base.getLast? = some '/'.toUInt8 then base ++ p
  else base ++ '/'.toUInt8 :: p

/-- The names between the slashes, which are empty where slashes meet. -/
def components (p : Path) : List Bytes := Bytes.split '/'.toUInt8 p

end Path
end TerminalCaps

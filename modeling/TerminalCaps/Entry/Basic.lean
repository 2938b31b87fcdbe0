import TerminalCaps.Bytes.Order
import TerminalCaps.Capability

/-! Decoded entries: what is known of one terminal, by position and by name. -/
namespace TerminalCaps

/-- A string of an entry: not defined, expressly removed, or given. -/
inductive Slot where
  | absent
  | canceled
  | present (text : Bytes)
  deriving DecidableEq, Repr

namespace Slot

def text? : Slot → Option Bytes
  | present text => some text
  | absent | canceled => none

end Slot

/-- Values by position. A number that an entry does not define is `none`. -/
structure Values where
  flags : List Bool
  numbers : List (Option Nat)
  strings : List Slot
  deriving DecidableEq, Repr

/-- Capabilities that an entry names itself, in the order in which it stores them. -/
structure Extension where
  flags : List (Bytes × Bool)
  numbers : List (Bytes × Option Nat)
  strings : List (Bytes × Slot)
  deriving DecidableEq, Repr

/-- An entry and the bytes it was decoded from. -/
structure Entry where
  data : Bytes
  /-- The names of the terminal, separated by bars. -/
  names : Bytes
  standard : Values
  extension : Option Extension
  deriving DecidableEq, Repr

namespace Entry

variable (e : Entry)

/-- The names of the terminal one by one; the last one is usually a description. -/
def aliases : List Bytes := Bytes.split '|'.toUInt8 e.names

def flagAt (position : Nat) : Bool := e.standard.flags[position]?.getD false

/-- The number at a position, `none` when it is not defined or past the end. -/
def numberAt (position : Nat) : Option Nat := e.standard.numbers[position]?.join

/-- The string at a position; it is absent past the end. -/
def slotAt (position : Nat) : Slot := e.standard.strings[position]?.getD .absent

def stringAt (position : Nat) : Option Bytes := (e.slotAt position).text?

def flag (c : Capability .boolean) : Bool := e.flagAt c.position

def number (c : Capability .number) : Option Nat := e.numberAt c.position

def string (c : Capability .string) : Option Bytes := e.stringAt c.position

/-- The flags that the entry names itself, and so for the other two kinds. -/
def extendedFlags : List (Bytes × Bool) := (e.extension.map Extension.flags).getD []

def extendedNumbers : List (Bytes × Option Nat) := (e.extension.map Extension.numbers).getD []

def extendedStrings : List (Bytes × Slot) := (e.extension.map Extension.strings).getD []

/-- The value of a named flag, `none` when the entry does not name it. Of two values with one name
the first counts, here and for the other two kinds. -/
def extendedFlag (name : Bytes) : Option Bool := e.extendedFlags.lookup name

def extendedNumber (name : Bytes) : Option Nat := (e.extendedNumbers.lookup name).join

def extendedString (name : Bytes) : Option Bytes := (e.extendedStrings.lookup name).bind Slot.text?

/-- A flag by its name, which is one of the extension only if it is not a standard one. -/
def flagByName (name : Bytes) : Bool :=
  match Capability.ofName? .boolean name with
  | some c => e.flag c
  | none => (e.extendedFlag name).getD false

def numberByName (name : Bytes) : Option Nat :=
  match Capability.ofName? .number name with
  | some c => e.number c
  | none => e.extendedNumber name

def stringByName (name : Bytes) : Option Bytes :=
  match Capability.ofName? .string name with
  | some c => e.string c
  | none => e.extendedString name

/-- The names of the entry's own flags in order, each once, and so for the other two kinds. -/
def extendedFlagNames : List Bytes := Bytes.ordered (e.extendedFlags.map Prod.fst)

def extendedNumberNames : List Bytes := Bytes.ordered (e.extendedNumbers.map Prod.fst)

def extendedStringNames : List Bytes := Bytes.ordered (e.extendedStrings.map Prod.fst)

end Entry
end TerminalCaps

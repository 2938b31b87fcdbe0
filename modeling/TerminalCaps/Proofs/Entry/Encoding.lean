import TerminalCaps.Entry.Decoder
import TerminalCaps.Proofs.Bytes.Utf8
import TerminalCaps.Proofs.Bytes.Words

/-!
The written form of an entry. Strings stand one after another at the start of their table, the names
of an extension one after another behind them, and numbers begin at an even place.
-/
namespace TerminalCaps

/-- The byte that takes the next section to an even place, if one is needed. -/
def padding (length : Nat) : Bytes := List.replicate (length % 2) 0

/-- Numbers of two bytes side by side. -/
def writeWords (words : List Int) : Bytes := words.flatMap (Bytes.littleEndian 2)

/-- The greatest count in a header. -/
def maxCount : Nat := 32767

namespace NumberWidth

/-- The numbers that can be stored. -/
def Fits : NumberWidth → Int → Prop
  | narrow, n => -32768 ≤ n ∧ n ≤ 32767
  | wide, n => -2147483648 ≤ n ∧ n ≤ 2147483647

end NumberWidth

namespace Slot

/-- The bytes of a string in its table. -/
def stored : Slot → Bytes
  | .present text => text ++ [0]
  | .absent | .canceled => []

/-- The offsets of strings that stand one after another, the first one at `start`. -/
def offsetsFrom : Nat → List Slot → List Int
  | _, [] => []
  | start, .absent :: slots => -1 :: offsetsFrom start slots
  | start, .canceled :: slots => -2 :: offsetsFrom start slots
  | start, .present text :: slots => start :: offsetsFrom (start + (text.length + 1)) slots

end Slot

/-- The values of a part of an entry, and the names of those that have one. -/
structure Sections where
  flags : Bytes
  numbers : List Int
  strings : List Slot
  names : List Bytes
  deriving DecidableEq, Repr

namespace Sections

variable (s : Sections)

/-- The names, which stand in the table like strings. -/
def nameSlots : List Slot := s.names.map .present

def table : Bytes := s.strings.flatMap Slot.stored ++ s.nameSlots.flatMap Slot.stored

/-- The sections in their order, with the byte before the numbers if their place asks for one. -/
def parts (width : NumberWidth) (start : Nat) : List Bytes :=
  [s.flags, padding (start + s.flags.length), s.numbers.flatMap (Bytes.littleEndian width.bytes),
    writeWords (Slot.offsetsFrom 0 s.strings), writeWords (Slot.offsetsFrom 0 s.nameSlots), s.table]

/-- The sections at a place of the entry. -/
def write (width : NumberWidth) (start : Nat) : Bytes := (s.parts width start).flatten

/-- Where the sections stand. -/
def layout (width : NumberWidth) (start : Nat) : Layout where
  width := width
  start := start
  flagCount := s.flags.length
  numberCount := s.numbers.length
  stringCount := s.strings.length
  nameCount := s.names.length
  tableSize := s.table.length

/-- What can be written: the values are those of their kinds, no string contains a zero byte, and
no count is too great for its header. -/
structure WellFormed (width : NumberWidth) : Prop where
  flags : ∀ b ∈ s.flags, b = 0 ∨ b = 1 ∨ b = 0xFE
  numbers : ∀ n ∈ s.numbers, width.Fits n
  strings : ∀ text, .present text ∈ s.strings → 0 ∉ text
  names : ∀ name ∈ s.names, 0 ∉ name ∧ Bytes.Utf8.IsText name
  flagCount : s.flags.length ≤ maxCount
  numberCount : s.numbers.length ≤ maxCount
  stringCount : s.strings.length ≤ maxCount
  tableSize : s.table.length ≤ maxCount

end Sections

/-- Named capabilities as they are to be written, with the count of the header that is not used. -/
structure ExtensionSource where
  flags : List (Bytes × UInt8)
  numbers : List (Bytes × Int)
  strings : List (Bytes × Slot)
  usage : Nat
  deriving DecidableEq, Repr

namespace ExtensionSource

variable (x : ExtensionSource)

/-- The values in their order, and behind one another the names of flags, numbers and strings. -/
def sections : Sections where
  flags := x.flags.map Prod.snd
  numbers := x.numbers.map Prod.snd
  strings := x.strings.map Prod.snd
  names := x.flags.map Prod.fst ++ (x.numbers.map Prod.fst ++ x.strings.map Prod.fst)

def counts : List Int :=
  [x.flags.length, x.numbers.length, x.strings.length, x.usage, x.sections.table.length]

def encode (width : NumberWidth) (start : Nat) : Bytes :=
  writeWords x.counts ++ x.sections.write width (start + ExtensionHeader.size)

end ExtensionSource

/-- An entry as it is to be written. -/
structure EntrySource where
  width : NumberWidth
  names : Bytes
  flags : Bytes
  numbers : List Int
  strings : List Slot
  extension : Option ExtensionSource
  deriving DecidableEq, Repr

namespace EntrySource

variable (s : EntrySource)

def sections : Sections where
  flags := s.flags
  numbers := s.numbers
  strings := s.strings
  names := []

def counts : List Int :=
  [s.width.magic, (s.names ++ [0]).length, s.flags.length, s.numbers.length, s.strings.length,
    s.sections.table.length]

/-- The header, the names and the standard sections. -/
def encodeStandard : Bytes :=
  writeWords s.counts ++ (s.names ++ [0]) ++
    s.sections.write s.width (Header.size + (s.names ++ [0]).length)

/-- The bytes of the entry. An extension begins at an even place. -/
def encode : Bytes :=
  match s.extension with
  | none => s.encodeStandard
  | some x => s.encodeStandard ++ padding s.encodeStandard.length ++
      x.encode s.width (roundUpEven s.encodeStandard.length)

/-- What can be written. -/
structure WellFormed : Prop where
  names : 0 ∉ s.names
  nameSize : (s.names ++ [0]).length ≤ maxCount
  standard : s.sections.WellFormed s.width
  extension : ∀ x ∈ s.extension, x.usage ≤ maxCount ∧ x.sections.WellFormed s.width

end EntrySource
end TerminalCaps

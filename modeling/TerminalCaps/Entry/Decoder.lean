import TerminalCaps.Bytes.Utf8
import TerminalCaps.Entry.Basic
import TerminalCaps.Entry.Layout

/-!
Decoding. The checks come in the order of the data: counts, names, flags, the ends of the other
sections, strings, and then the extension, if the data are long enough to hold its header.
-/
namespace TerminalCaps

/-- Why bytes are not an entry. -/
inductive DecodeError where
  | unknownMagic
  | truncated
  | unterminatedString
  /-- A negative count, or an offset that lies outside of its table. -/
  | unsupportedFormat
  | invalidFlag (value : UInt8)
  /-- A capability of the extension has a name that is not UTF-8. -/
  | invalidName (fault : Bytes.Utf8.Fault)
  deriving DecidableEq, Repr

namespace DecodeError

def message : DecodeError → String
  | unknownMagic => "Unknown magic number"
  | truncated => "Truncated terminfo database"
  | unterminatedString => "String without final NUL"
  | unsupportedFormat => "Unsupported terminfo format"
  | invalidFlag value => "Invalid boolean value " ++ toString value.toNat
  | invalidName _ => "Invalid UTF-8 string"

end DecodeError

abbrev Decoded (α : Type) := Except DecodeError α

/-- The bytes of a part, if all of it is there. -/
def Span.read (s : Span) (data : Bytes) : Decoded Bytes :=
  if s.stop ≤ data.length then .ok (s.slice data) else .error .truncated

/-- The signed number in the two bytes at a position. -/
def wordAt (data : Bytes) (position : Nat) : Int := Bytes.signed ((data.drop position).take 2)

/-- The count in the two bytes at a position. -/
def countAt (data : Bytes) (position : Nat) : Decoded Nat :=
  let count := wordAt data position
  if count < 0 then .error .unsupportedFormat else .ok count.toNat

/-- A flag is set or not set, or it is canceled. -/
def decodeFlag (b : UInt8) : Decoded Bool :=
  if b = 1 then .ok true
  else if b = 0 ∨ b = 0xFE then .ok false
  else .error (.invalidFlag b)

/-- A negative number is one that is absent or canceled. -/
def decodeNumber (n : Int) : Option Nat := if n < 0 then none else some n.toNat

/-- The string at an offset of a table. -/
def decodeString (table : Bytes) (offset : Nat) : Decoded Bytes :=
  if table.length < offset then .error .unsupportedFormat
  else match Bytes.zeroTerminated? (table.drop offset) with
    | none => .error .unterminatedString
    | some text => .ok text

/-- The string of an offset, where -1 stands for an absent and -2 for a canceled one. -/
def decodeSlot (table : Bytes) (offset : Int) : Decoded Slot :=
  if offset = -1 then .ok .absent
  else if offset = -2 then .ok .canceled
  else if offset < 0 then .error .unsupportedFormat
  else (decodeString table offset.toNat).map .present

/-- The name of an offset, which must be there and be UTF-8. -/
def decodeName (table : Bytes) (offset : Int) : Decoded Bytes := do
  if offset < 0 then throw .unsupportedFormat
  let name ← decodeString table offset.toNat
  match Bytes.Utf8.fault? name with
  | none => return name
  | some fault => throw (.invalidName fault)

namespace Layout

variable (l : Layout)

/-- The values of all sections. -/
def decodeValues (data : Bytes) : Decoded Values := do
  let flags ← (← l.flags.read data).mapM decodeFlag
  if data.length < l.table.stop then throw .truncated
  let numbers := Bytes.signedList l.width.bytes l.numberCount (l.numbers.slice data)
  let offsets := Bytes.signedList 2 l.stringCount (l.offsets.slice data)
  let strings ← offsets.mapM (decodeSlot (l.table.slice data))
  return ⟨flags, numbers.map decodeNumber, strings⟩

end Layout

namespace Header

/-- Reads the counts at the start of an entry. -/
def read (data : Bytes) : Decoded Header := do
  if data.length < size then throw .truncated
  match NumberWidth.ofMagic? (wordAt data 0) with
  | none => throw .unknownMagic
  | some width =>
    let nameSize ← countAt data 2
    let flagCount ← countAt data 4
    let numberCount ← countAt data 6
    let stringCount ← countAt data 8
    let tableSize ← countAt data 10
    return { width, nameSize, flagCount, numberCount, stringCount, tableSize }

/-- The names of the terminal. -/
def readNames (h : Header) (data : Bytes) : Decoded Bytes := do
  match Bytes.zeroTerminated? (← h.names.read data) with
  | none => throw .unterminatedString
  | some names => return names

end Header

namespace ExtensionHeader

/-- Reads the counts at the start of an extension. The fourth of the five is how much of the table
is in use, which is not needed. -/
def read (width : NumberWidth) (start : Nat) (data : Bytes) : Decoded ExtensionHeader := do
  let flagCount ← countAt data start
  let numberCount ← countAt data (start + 2)
  let stringCount ← countAt data (start + 4)
  let _ ← countAt data (start + 6)
  let tableSize ← countAt data (start + 8)
  return { width, start, flagCount, numberCount, stringCount, tableSize }

end ExtensionHeader

/-- The bytes that a string takes up in its table. -/
def Slot.storedSize : Slot → Nat
  | .present text => text.length + 1
  | .absent | .canceled => 0

def Slot.totalSize (slots : List Slot) : Nat :=
  slots.foldr (fun slot size => slot.storedSize + size) 0

namespace Extension

/-- Gives each value its name: the names of flags come first, those of strings last. -/
def ofValues (values : Values) (names : List Bytes) : Extension :=
  let names₁ := names.drop values.flags.length
  let names₂ := names₁.drop values.numbers.length
  ⟨names.zip values.flags, names₁.zip values.numbers, names₂.zip values.strings⟩

/-- Decodes an extension. The names follow the strings in the table, and their offsets count from
there. -/
def decode (h : ExtensionHeader) (data : Bytes) : Decoded Extension := do
  let values ← h.layout.decodeValues data
  let table := h.layout.table.slice data
  let namesStart := Slot.totalSize values.strings
  if table.length < namesStart then throw .unsupportedFormat
  let offsets := Bytes.signedList 2 h.layout.nameCount (h.layout.nameOffsets.slice data)
  let names ← offsets.mapM (decodeName (table.drop namesStart))
  return ofValues values names

end Extension

namespace Entry

/-- The extension after the standard sections, if the data do not end before. -/
def decodeExtension (h : Header) (data : Bytes) : Decoded (Option Extension) := do
  if data.length < h.extensionStart + ExtensionHeader.size then return none
  let header ← ExtensionHeader.read h.width h.extensionStart data
  return some (← Extension.decode header data)

/-- Decodes an entry. -/
def decode (data : Bytes) : Decoded Entry := do
  let header ← Header.read data
  let names ← header.readNames data
  let standard ← header.layout.decodeValues data
  let extension ← decodeExtension header data
  return { data, names, standard, extension }

end Entry
end TerminalCaps

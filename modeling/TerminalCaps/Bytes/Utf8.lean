import TerminalCaps.Bytes

/-! Well-formed UTF-8, and the place where a byte string stops being so. -/
namespace TerminalCaps.Bytes.Utf8

/-- Where a text breaks: `validUpTo` counts the bytes before the broken character, and `errorLength`
those of it that were still in order, one for a byte that begins no character at all. It is `none`
when the text ends inside a character. -/
structure Fault where
  validUpTo : Nat
  errorLength : Option Nat
  deriving DecidableEq, Repr

/-- The least and the greatest value of a byte. -/
structure ByteRange where
  low : UInt8
  high : UInt8
  deriving DecidableEq, Repr

namespace ByteRange

def contains (r : ByteRange) (b : UInt8) : Bool := r.low ≤ b && b ≤ r.high

/-- The bytes that continue a character. -/
def continuation : ByteRange := ⟨0x80, 0xBF⟩

end ByteRange

open ByteRange in
/-- The bytes owed after the first byte of a character, none after an ASCII byte. The narrower
ranges keep out overlong forms, surrogates and values above 10FFFF. -/
def owedAfter? (b : UInt8) : Option (List ByteRange) :=
  if b < 0x80 then some []
  else if b < 0xC2 then none
  else if b < 0xE0 then some [continuation]
  else if b = 0xE0 then some [⟨0xA0, 0xBF⟩, continuation]
  else if b = 0xED then some [⟨0x80, 0x9F⟩, continuation]
  else if b < 0xF0 then some [continuation, continuation]
  else if b = 0xF0 then some [⟨0x90, 0xBF⟩, continuation, continuation]
  else if b < 0xF4 then some [continuation, continuation, continuation]
  else if b = 0xF4 then some [⟨0x80, 0x8F⟩, continuation, continuation]
  else none

/-- The first fault of a text of which `start` bytes of whole characters and `seen` bytes of one
more have been read, the list being what is missing of that one. -/
def faultFrom (start seen : Nat) : List ByteRange → Bytes → Option Fault
  | [], [] => none
  | [], b :: rest =>
    match owedAfter? b with
    | none => some ⟨start + seen, some 1⟩
    | some owed => faultFrom (start + seen) 1 owed rest
  | _ :: _, [] => some ⟨start, none⟩
  | range :: owed, b :: rest =>
    if range.contains b then faultFrom start (seen + 1) owed rest else some ⟨start, some seen⟩

/-- The first fault of a text, `none` when it is well formed. -/
def fault? (text : Bytes) : Option Fault := faultFrom 0 0 [] text

end TerminalCaps.Bytes.Utf8

import TerminalCaps.Bytes

/-! Where the sections of an entry stand, computed from the counts of its headers alone. -/
namespace TerminalCaps

/-- Part of an entry. -/
structure Span where
  start : Nat
  size : Nat
  deriving DecidableEq, Repr

namespace Span

def stop (s : Span) : Nat := s.start + s.size

/-- The bytes of the part, fewer when the data end before it does. -/
def slice (s : Span) (data : Bytes) : Bytes := (data.drop s.start).take s.size

theorem length_slice {s : Span} {data : Bytes} (h : s.stop ≤ data.length) :
    (s.slice data).length = s.size := by
  simp only [stop] at h
  simp only [slice, List.length_take, List.length_drop]
  omega

theorem getElem?_slice {s : Span} (data : Bytes) {i : Nat} (hi : i < s.size) :
    (s.slice data)[i]? = data[s.start + i]? := by
  simp only [slice, List.getElem?_take, List.getElem?_drop, if_pos hi]

/-- A part of a part is a part of the whole. -/
theorem slice_slice {s part : Span} (data : Bytes) (h : part.stop ≤ s.size) :
    part.slice (s.slice data) = Span.slice ⟨s.start + part.start, part.size⟩ data := by
  simp only [stop] at h
  simp only [slice, List.drop_take, List.take_take, List.drop_drop]
  rw [Nat.min_eq_left (Nat.le_sub_of_add_le' h)]

/-- Bytes after a part do not change it. -/
theorem slice_append {s : Span} {data : Bytes} (h : s.stop ≤ data.length) (more : Bytes) :
    s.slice (data ++ more) = s.slice data := by
  simp only [stop] at h
  simp only [slice]
  rw [List.drop_append_of_le_length (by omega), List.take_append_of_le_length]
  simp only [List.length_drop]
  omega

end Span

/-- The least even number that is not smaller. -/
def roundUpEven (n : Nat) : Nat := n + n % 2

/-- The size of the numbers in an entry. -/
inductive NumberWidth where
  | narrow | wide
  deriving DecidableEq, Repr

namespace NumberWidth

def bytes : NumberWidth → Nat
  | narrow => 2
  | wide => 4

theorem bytes_pos (width : NumberWidth) : 0 < width.bytes := by
  cases width <;> decide

/-- The number with which an entry begins. -/
def magic : NumberWidth → Int
  | narrow => 0o432
  | wide => 0o1036

def ofMagic? (magic : Int) : Option NumberWidth :=
  if magic = narrow.magic then some narrow
  else if magic = wide.magic then some wide
  else none

@[simp] theorem ofMagic?_magic (width : NumberWidth) : ofMagic? width.magic = some width := by
  cases width <;> rfl

end NumberWidth

/-- The sections of values: flags, numbers and the offsets of strings, the offsets of names if there
are any, and the table that the offsets point into. -/
structure Layout where
  width : NumberWidth
  start : Nat
  flagCount : Nat
  numberCount : Nat
  stringCount : Nat
  nameCount : Nat
  tableSize : Nat
  deriving DecidableEq, Repr

namespace Layout

variable (l : Layout)

def flags : Span := ⟨l.start, l.flagCount⟩

/-- Numbers begin at an even place. -/
def numbers : Span := ⟨roundUpEven l.flags.stop, l.width.bytes * l.numberCount⟩

def offsets : Span := ⟨l.numbers.stop, 2 * l.stringCount⟩

def nameOffsets : Span := ⟨l.offsets.stop, 2 * l.nameCount⟩

def table : Span := ⟨l.nameOffsets.stop, l.tableSize⟩

end Layout

/-- The counts at the start of an entry. -/
structure Header where
  width : NumberWidth
  nameSize : Nat
  flagCount : Nat
  numberCount : Nat
  stringCount : Nat
  tableSize : Nat
  deriving DecidableEq, Repr

namespace Header

variable (h : Header)

def size : Nat := 12

def names : Span := ⟨size, h.nameSize⟩

/-- The sections of standard capabilities, which follow the names. -/
def layout : Layout where
  width := h.width
  start := h.names.stop
  flagCount := h.flagCount
  numberCount := h.numberCount
  stringCount := h.stringCount
  nameCount := 0
  tableSize := h.tableSize

/-- The place where an extension would begin. -/
def extensionStart : Nat := roundUpEven h.layout.table.stop

end Header

/-- The counts at the start of an extension. -/
structure ExtensionHeader where
  width : NumberWidth
  start : Nat
  flagCount : Nat
  numberCount : Nat
  stringCount : Nat
  tableSize : Nat
  deriving DecidableEq, Repr

namespace ExtensionHeader

variable (h : ExtensionHeader)

def size : Nat := 10

/-- The sections of an extension. Every capability has a name. -/
def layout : Layout where
  width := h.width
  start := h.start + size
  flagCount := h.flagCount
  numberCount := h.numberCount
  stringCount := h.stringCount
  nameCount := h.flagCount + h.numberCount + h.stringCount
  tableSize := h.tableSize

end ExtensionHeader
end TerminalCaps

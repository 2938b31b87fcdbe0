import TerminalCaps.Proofs.Entry.Continuation
import TerminalCaps.Proofs.Entry.Reading

/-!
Values by position. What is read at an index is told from the bytes alone, by the place that the
index times the size of an element gives. A reader that computes places in 64 bits comes to the same
answers for every index, since it gives up where a product or a sum does not fit.
-/
namespace TerminalCaps

namespace Format

/-- The number in four bytes, the lowest first. From 2147483648 on it stands for a negative one. -/
def longWord (data : Bytes) (position : Nat) : Int :=
  let byte := fun i => (data[position + i]?.getD 0).toNat
  let n := byte 0 + 256 * byte 1 + 65536 * byte 2 + 16777216 * byte 3
  if n < 2147483648 then (n : Nat) else (n : Nat) - 4294967296

/-- The number at a position, in two bytes or in four. -/
def number : NumberWidth → Bytes → Nat → Int
  | .narrow => word
  | .wide => longWord

theorem count_lt (data : Bytes) (position : Nat) : count data position < 32768 := by
  have hlow := UInt8.toNat_lt (data[position]?.getD 0)
  have hhigh := UInt8.toNat_lt (data[position + 1]?.getD 0)
  simp only [count, word]
  split_ifs <;> omega

theorem numbers_size_lt (data : Bytes) : (header data).layout.numbers.size < UInt64.size := by
  have hwidth : (header data).layout.width.bytes ≤ 4 := by
    cases (header data).layout.width <;> decide
  calc (header data).layout.numbers.size = (header data).layout.width.bytes * count data 6 := rfl
    _ ≤ 4 * 32768 := Nat.mul_le_mul hwidth (Nat.le_of_lt (count_lt data 6))
    _ < UInt64.size := by decide

theorem offsets_size_lt (data : Bytes) : (header data).layout.offsets.size < UInt64.size := by
  calc (header data).layout.offsets.size = 2 * count data 8 := rfl
    _ ≤ 2 * 32768 := Nat.mul_le_mul_left 2 (Nat.le_of_lt (count_lt data 8))
    _ < UInt64.size := by decide

end Format

theorem Bytes.signed_four (a b c d : UInt8) : signed [a, b, c, d] =
    Format.longWord [a, b, c, d] 0 := by
  have ha := UInt8.toNat_lt a
  have hb := UInt8.toNat_lt b
  have hc := UInt8.toNat_lt c
  have hd := UInt8.toNat_lt d
  change Int.bmod _ (Nat.pow 256 4) = _
  simp only [Format.longWord, Nat.zero_add, List.foldr_cons, List.foldr_nil, Nat.mul_zero,
    Nat.add_zero, List.getElem?_cons_zero, List.getElem?_cons_succ, Option.getD_some]
  have hpow : Nat.pow 256 4 = 4294967296 := rfl
  rw [hpow]
  split_ifs with hsmall
  · rw [Int.bmod_eq_of_le] <;> omega
  · rw [Int.bmod_def]
    omega

theorem Format.signed_eq_number {width : NumberWidth} {data : Bytes} {position : Nat}
    (h : position + width.bytes ≤ data.length) :
    Bytes.signed ((data.drop position).take width.bytes) = number width data position := by
  cases width with
  | narrow => exact wordAt_eq_word h
  | wide =>
    change position + 4 ≤ data.length at h
    have hbytes : (data.drop position).take 4 = [data[position], data[position + 1],
        data[position + 2], data[position + 3]] := by
      rw [List.drop_eq_getElem_cons (by omega), List.drop_eq_getElem_cons (by omega),
        List.drop_eq_getElem_cons (by omega), List.drop_eq_getElem_cons (by omega)]
      rfl
    change Bytes.signed ((data.drop position).take 4) = longWord data position
    rw [hbytes, Bytes.signed_four]
    simp [longWord, show position < data.length by omega, show position + 1 < data.length by omega,
      show position + 2 < data.length by omega, show position + 3 < data.length by omega]

theorem Span.length_contents {s : Span} {data : Bytes} (h : s.stop ≤ data.length) :
    (s.contents data).length = s.size := by
  rw [contents_eq h, length_slice h]

/-- The numbers of a part are those of the data. -/
theorem Span.numberAt?_contents_eq_some_iff {s : Span} {data : Bytes} {width : NumberWidth}
    {count : Nat} (hsize : s.size = width.bytes * count) (h : s.stop ≤ data.length) {i : Nat}
    {n : Int} : Bytes.numberAt? width.bytes (s.contents data) i = some n ↔
      i < count ∧ Format.number width data (s.start + width.bytes * i) = n := by
  rw [contents_eq h, ← Bytes.getElem?_signedList width.bytes_pos ((length_slice h).trans hsize),
    Bytes.signedList_eq_map, List.getElem?_map]
  rcases Nat.lt_or_ge i count with hi | hi
  · have hstop : width.bytes * i + width.bytes ≤ s.size := hsize ▸ Nat.mul_le_mul_left _ hi
    have hinside : s.start + width.bytes * i + width.bytes ≤ data.length := by
      rw [stop] at h
      omega
    have hslice : ((s.slice data).drop (width.bytes * i)).take width.bytes =
        (data.drop (s.start + width.bytes * i)).take width.bytes :=
      @slice_slice s ⟨width.bytes * i, width.bytes⟩ data hstop
    simp [hi, hslice, Format.signed_eq_number hinside]
  · simp [Nat.not_lt.2 hi]

namespace Layout

variable {l : Layout} {data : Bytes} {values : Values} {i : Nat}

theorem Shows.stop_le (h : l.Shows data values) :
    l.flags.stop ≤ data.length ∧ l.numbers.stop ≤ data.length ∧ l.offsets.stop ≤ data.length ∧
      l.table.stop ≤ data.length := by
  have hinside : ∀ s ∈ l.sections, s.stop ≤ data.length := fun s hs => (h.inside s hs).2
  simp only [sections, List.forall_mem_cons] at hinside
  exact ⟨hinside.1, hinside.2.1, hinside.2.2.1, hinside.2.2.2.2.1⟩

theorem Shows.flagIn?_eq_some_iff (h : l.Shows data values) {b : Bool} :
    l.flagIn? data i = some b ↔ i < l.flagCount ∧ (data[l.flags.start + i]? == some 1) = b := by
  have hstop := h.stop_le.1
  rw [flagIn?, Span.contents_eq hstop]
  by_cases hi : i < l.flagCount
  · have hlt : l.flags.start + i < data.length :=
      Nat.lt_of_lt_of_le (Nat.add_lt_add_left hi _) hstop
    rw [Span.getElem?_slice data hi, List.getElem?_eq_getElem hlt]
    simp [hi]
  · have hend : (l.flags.slice data).length ≤ i := by
      rw [Span.length_slice hstop]
      exact Nat.not_lt.1 hi
    simp [List.getElem?_eq_none hend, hi]

theorem Shows.numberIn?_eq_some_iff (h : l.Shows data values) {n : Int} :
    l.numberIn? data i = some n ↔ i < l.numberCount ∧
      Format.number l.width data (l.numbers.start + l.width.bytes * i) = n :=
  Span.numberAt?_contents_eq_some_iff rfl h.stop_le.2.1

theorem Shows.offsetIn?_eq_some_iff (h : l.Shows data values) {n : Int} :
    l.offsetIn? data i = some n ↔ i < l.stringCount ∧ l.places.offset data i = n :=
  @Span.numberAt?_contents_eq_some_iff l.offsets data .narrow l.stringCount rfl h.stop_le.2.2.1 i n

/-- What the string at an index is hangs on its offset alone. -/
theorem slotIn_eq_iff (h : l.decodeValues data = .ok values) (hi : i < l.stringCount) (slot : Slot) :
    l.slotIn data i = slot ↔
      SlotAt ((data.take l.places.stop).drop l.places.table) (l.places.offset data i) slot := by
  have hshows := shows_of_decodeValues h
  have hoffset := hshows.offsetIn?_eq_some_iff.2 ⟨hi, rfl⟩
  have hcontents : l.table.contents data = (data.take l.places.stop).drop l.places.table :=
    (Span.contents_eq hshows.stop_le.2.2.2).trans (List.take_drop ..)
  have hrel := slotAt_slotIn h i
  rw [hoffset, hcontents] at hrel
  generalize values.strings[i]? = found at hrel
  cases hrel with
  | some hfound =>
    constructor
    · rintro rfl
      exact hfound.2 ▸ hfound.1
    · intro hslot
      rw [slotIn, hoffset, hcontents]
      exact Slot.ofOffset_eq hslot

end Layout

section Checked

/-- The result of an operation in 64 bits, unless it is not the exact one. -/
def checked? (result : UInt64) (exact : Nat) : Option UInt64 :=
  if result.toNat = exact then some result else none

theorem checked?_eq_some_iff {result c : UInt64} {exact : Nat}
    (h : result.toNat = exact % UInt64.size) : checked? result exact = some c ↔ c.toNat = exact := by
  rw [checked?, Option.ite_none_right_eq_some, Option.some.injEq]
  constructor
  · rintro ⟨hexact, rfl⟩
    exact hexact
  · intro hc
    have hresult : result.toNat = exact := by
      rw [h, ← hc]
      exact Nat.mod_eq_of_lt (UInt64.toNat_lt_size c)
    exact ⟨hresult, UInt64.toNat_inj.1 (hresult.trans hc.symm)⟩

/-- The bytes between two places, if there are such bytes. -/
def Bytes.between? (bytes : Bytes) (start stop : UInt64) : Option Bytes :=
  if start ≤ stop ∧ stop.toNat ≤ bytes.length then
    some ((bytes.take stop.toNat).drop start.toNat)
  else none

/-- The element at an index, for elements of one size. -/
def Bytes.elementAt? (size : UInt64) (bytes : Bytes) (index : UInt64) : Option Bytes := do
  let start ← checked? (index * size) (index.toNat * size.toNat)
  let stop ← checked? (start + size) (start.toNat + size.toNat)
  bytes.between? start stop

variable {size index : UInt64} {bytes part : Bytes}

/-- A place that does not fit in 64 bits is outside, and all others are exact. -/
theorem Bytes.elementAt?_eq_some_iff (hlength : bytes.length < UInt64.size) :
    bytes.elementAt? size index = some part ↔
      size.toNat * index.toNat + size.toNat ≤ bytes.length ∧
        (Span.mk (size.toNat * index.toNat) size.toNat).slice bytes = part := by
  have hmul : ∀ start, checked? (index * size) (index.toNat * size.toNat) = some start ↔
      start.toNat = index.toNat * size.toNat :=
    fun _ => checked?_eq_some_iff (UInt64.toNat_mul ..)
  have hadd : ∀ start stop, checked? (start + size) (start.toNat + size.toNat) = some stop ↔
      stop.toNat = start.toNat + size.toNat :=
    fun _ _ => checked?_eq_some_iff (UInt64.toNat_add ..)
  simp only [elementAt?, Option.bind_eq_bind, Option.bind_eq_some_iff, between?, hmul, hadd,
    Option.ite_none_right_eq_some, Option.some.injEq, UInt64.le_iff_toNat_le]
  rw [Span.slice, Nat.mul_comm size.toNat]
  constructor
  · rintro ⟨start, hstart, stop, hstop, ⟨-, hinside⟩, rfl⟩
    rw [hstop, hstart] at hinside ⊢
    exact ⟨hinside, List.take_drop ..⟩
  · rintro ⟨hinside, rfl⟩
    have hstart := @UInt64.toNat_ofNat_of_lt' (index.toNat * size.toNat) (by omega)
    have hstop := @UInt64.toNat_ofNat_of_lt' (index.toNat * size.toNat + size.toNat) (by omega)
    refine ⟨_, hstart, _, hstart.symm ▸ hstop, ?_⟩
    rw [hstart, hstop]
    exact ⟨⟨Nat.le_add_right _ _, hinside⟩, (List.take_drop ..).symm⟩

theorem Bytes.map_signed_elementAt? (hlength : bytes.length < UInt64.size) :
    (bytes.elementAt? size index).map signed = numberAt? size.toNat bytes index.toNat := by
  have helement := @elementAt?_eq_some_iff size index bytes
  rw [numberAt?, Span.read]
  split_ifs with hinside
  · rw [(helement hlength).2 ⟨hinside, rfl⟩]
    rfl
  · have hnone : bytes.elementAt? size index = none := by
      apply Option.eq_none_iff_forall_ne_some.2
      intro part hpart
      exact hinside ((helement hlength).1 hpart).1
    rw [hnone]
    rfl

end Checked

namespace Layout

variable {l : Layout} {data : Bytes} {values : Values} {index : UInt64}

/-- The number at an index of 64 bits, read from the section. -/
def numberIn64? (l : Layout) (data : Bytes) (index : UInt64) : Option Int :=
  ((l.numbers.contents data).elementAt? (UInt64.ofNat l.width.bytes) index).map Bytes.signed

def offsetIn64? (l : Layout) (data : Bytes) (index : UInt64) : Option Int :=
  ((l.offsets.contents data).elementAt? 2 index).map Bytes.signed

def slotIn64 (l : Layout) (data : Bytes) (index : UInt64) : Slot :=
  (l.offsetIn64? data index).elim .absent (Slot.ofOffset (l.table.contents data))

theorem Shows.numberIn64?_eq (h : l.Shows data values) (hsize : l.numbers.size < UInt64.size) :
    l.numberIn64? data index = l.numberIn? data index.toNat := by
  have hlength := Span.length_contents h.stop_le.2.1
  rw [numberIn64?, Bytes.map_signed_elementAt? (hlength.symm ▸ hsize)]
  cases l with | mk width => cases width <;> rfl

theorem Shows.slotIn64_eq (h : l.Shows data values) (hsize : l.offsets.size < UInt64.size) :
    l.slotIn64 data index = l.slotIn data index.toNat := by
  have hlength := Span.length_contents h.stop_le.2.2.1
  rw [slotIn64, offsetIn64?, Bytes.map_signed_elementAt? (hlength.symm ▸ hsize)]
  rfl

end Layout

namespace Entry

open Format

/-- What an entry answers for an index, told from the bytes alone. -/
structure ExactAt (e : Entry) (data : Bytes) (index : UInt64) : Prop where
  flagCount : e.standard.flags.length = count data 4
  numberCount : e.standard.numbers.length = count data 6
  stringCount : e.standard.strings.length = count data 8
  flag : e.flagAt index.toNat = true ↔ index.toNat < e.standard.flags.length ∧
    data[12 + count data 2 + index.toNat]? = some 1
  number : ∀ n : Nat, e.numberAt index.toNat = some n ↔
    index.toNat < e.standard.numbers.length ∧
      Format.number (header data).width data (12 + count data 2 + count data 4 +
        (count data 2 + count data 4) % 2 + index.toNat * numberSize data) = n
  slot_past : e.standard.strings.length ≤ index.toNat → e.slotAt index.toNat = .absent
  slot : index.toNat < e.standard.strings.length → ∀ slot, e.slotAt index.toNat = slot ↔
    SlotAt ((data.take (Format.standard data).stop).drop (Format.standard data).table)
      ((Format.standard data).offset data index.toNat) slot
  string : ∀ text, e.stringAt index.toNat = some text ↔ e.slotAt index.toNat = .present text
  number_read : e.numberAt index.toNat = ((header data).layout.numberIn64? data index).bind decodeNumber
  slot_read : e.slotAt index.toNat = (header data).layout.slotIn64 data index

section Read

variable {l : Layout} {data : Bytes} {e : Entry}

theorem flagAt_eq (h : l.Shows data e.standard) (i : Nat) :
    e.flagAt i = (l.flagIn? data i).getD false := by
  rw [flagAt, h.flag]

theorem numberAt_eq (h : l.Shows data e.standard) (i : Nat) :
    e.numberAt i = (l.numberIn? data i).bind decodeNumber := by
  rw [numberAt, h.number]
  cases l.numberIn? data i <;> rfl

theorem slotAt_eq (h : l.Shows data e.standard) (i : Nat) : e.slotAt i = l.slotIn data i := by
  rw [slotAt, h.slot, Layout.slotIn]
  cases l.offsetIn? data i <;> rfl

end Read

/-- Reading by position is exact for every index of 64 bits, also where the index times the size of
an element is no number of 64 bits. -/
theorem decode_exactAt {data : Bytes} {e : Entry} (h : decode data = .ok e) (index : UInt64) :
    e.ExactAt data index := by
  obtain ⟨-, first, hfirst, -, hvalues, -⟩ := decode_eq_ok_iff.1 h
  obtain ⟨-, rfl⟩ := read_header_iff.1 hfirst
  have hshows := Layout.shows_of_decodeValues hvalues
  exact {
    flagCount := hshows.flagCount
    numberCount := hshows.numberCount
    stringCount := hshows.stringCount
    flag := by
      rw [flagAt_eq hshows, hshows.flagCount]
      calc ((header data).layout.flagIn? data index.toNat).getD false = true
          ↔ (header data).layout.flagIn? data index.toNat = some true := by
            cases (header data).layout.flagIn? data index.toNat <;> simp
        _ ↔ _ := by
            rw [hshows.flagIn?_eq_some_iff, beq_iff_eq]
            rfl
    number := by
      intro n
      rw [numberAt_eq hshows, hshows.numberCount]
      simp only [Option.bind_eq_some_iff, hshows.numberIn?_eq_some_iff,
        EntrySource.decodeNumber_eq_some_iff, exists_eq_right, numbers_start_header]
      rw [Nat.mul_comm, ← bytes_width]
      rfl
    slot_past := by
      intro hpast
      rw [slotAt, List.getElem?_eq_none hpast]
      rfl
    slot := by
      intro hi slot
      rw [hshows.stringCount] at hi
      rw [slotAt_eq hshows, Layout.slotIn_eq_iff hvalues hi, places_standard]
    string := fun text => EntrySource.text?_eq_some_iff
    number_read := by
      rw [numberAt_eq hshows, hshows.numberIn64?_eq (numbers_size_lt data)]
    slot_read := by
      rw [slotAt_eq hshows, hshows.slotIn64_eq (offsets_size_lt data)] }

/-- In 64 bits, twice the index is the place of the first number. -/
theorem decode_exactAt_smallEntry :
    let index : UInt64 := 0x8000000000000000
    index * 2 = 0 ∧ decode smallEntry = .ok smallEntryDecoded ∧
      smallEntryDecoded.ExactAt smallEntry index ∧ smallEntryDecoded.numberAt 0 = some 80 ∧
      smallEntryDecoded.numberAt index.toNat = none := by
  refine ⟨by decide, decode_smallEntry, decode_exactAt decode_smallEntry _, rfl, ?_⟩
  decide +kernel

end Entry
end TerminalCaps

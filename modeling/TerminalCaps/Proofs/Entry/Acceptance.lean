import TerminalCaps.Proofs.Entry.Decoding

/-!
The declared format of an entry, with every place given by the counts of the headers: bytes are
decoded exactly if they are in this format.
-/
namespace TerminalCaps

namespace Format

/-- The number in two bytes, the lower one first. From 32768 on it stands for a negative one. -/
def word (data : Bytes) (position : Nat) : Int :=
  let low := (data[position]?.getD 0).toNat
  let high := (data[position + 1]?.getD 0).toNat
  if low + 256 * high < 32768 then (low + 256 * high : Nat)
  else (low + 256 * high : Nat) - 65536

def count (data : Bytes) (position : Nat) : Nat := (word data position).toNat

/-- A zero byte stands at or after a place and before another one. -/
def Terminated (data : Bytes) (start stop : Nat) : Prop :=
  ∃ i, start ≤ i ∧ i < stop ∧ data[i]? = some 0

/-- Where the sections begin that are checked, and how many flags and offsets they have. -/
structure Places where
  flags : Nat
  flagCount : Nat
  offsets : Nat
  stringCount : Nat
  names : Nat
  nameCount : Nat
  table : Nat
  stop : Nat
  deriving DecidableEq, Repr

namespace Places

variable (p : Places) (data : Bytes)

def offset (i : Nat) : Int := word data (p.offsets + 2 * i)

/-- The bytes up to and with the zero byte of the string at an offset, none if it is not there. -/
def stringSize (offset : Int) : Nat :=
  if offset < 0 then 0
  else (((data.take p.stop).drop (p.table + offset.toNat)).takeWhile (· != 0)).length + 1

/-- The size of all strings together. -/
def stringsSize : Nat :=
  (List.range p.stringCount).foldr (fun i size => p.stringSize data (p.offset data i) + size) 0

structure Accepted : Prop where
  inside : p.stop ≤ data.length
  flags : ∀ i < p.flagCount, ∃ b, data[p.flags + i]? = some b ∧ (b = 0 ∨ b = 1 ∨ b = 0xFE)
  strings : ∀ i < p.stringCount, p.offset data i = -1 ∨ p.offset data i = -2 ∨
    0 ≤ p.offset data i ∧ Terminated data (p.table + (p.offset data i).toNat) p.stop

/-- The names are UTF-8, and their offsets count from the end of the strings. -/
def NamesAccepted : Prop :=
  ∀ i < p.nameCount, ∃ position : Nat, word data (p.names + 2 * i) = position ∧
    ∃ name, Bytes.Utf8.IsText name ∧
      TextAt (data.take p.stop) (p.table + p.stringsSize data + position) name

end Places

variable (data : Bytes)

def numberSize : Nat := if word data 0 = 0o432 then 2 else 4

/-- The places of the standard sections. -/
def standard : Places :=
  let n := count data 2
  let b := count data 4
  let m := count data 6
  let s := count data 8
  let t := count data 10
  let numbers := 12 + n + b + (n + b) % 2
  { flags := 12 + n
    flagCount := b
    offsets := numbers + numberSize data * m
    stringCount := s
    names := numbers + numberSize data * m + 2 * s
    nameCount := 0
    table := numbers + numberSize data * m + 2 * s
    stop := numbers + numberSize data * m + 2 * s + t }

def extensionStart : Nat := (standard data).stop + (standard data).stop % 2

/-- The places of the sections of the extension. -/
def extension : Places :=
  let e := extensionStart data
  let b := count data e
  let m := count data (e + 2)
  let s := count data (e + 4)
  let t := count data (e + 8)
  let numbers := e + 10 + b + b % 2
  { flags := e + 10
    flagCount := b
    offsets := numbers + numberSize data * m
    stringCount := s
    names := numbers + numberSize data * m + 2 * s
    nameCount := b + m + s
    table := numbers + numberSize data * m + 2 * s + 2 * (b + m + s)
    stop := numbers + numberSize data * m + 2 * s + 2 * (b + m + s) + t }

structure HeaderAccepted : Prop where
  size : 12 ≤ data.length
  magic : word data 0 = 0o432 ∨ word data 0 = 0o1036
  counts : ∀ position ∈ [2, 4, 6, 8, 10], 0 ≤ word data position

structure ExtensionAccepted : Prop where
  counts : ∀ position ∈ [0, 2, 4, 6, 8], 0 ≤ word data (extensionStart data + position)
  sections : (extension data).Accepted data
  names : (extension data).NamesAccepted data

/-- The format. Bytes after the last section do not matter, and neither do those after the standard
sections when they are too few for the header of an extension. -/
structure Accepted : Prop where
  header : HeaderAccepted data
  sections : (standard data).Accepted data
  names : Terminated data 12 (12 + count data 2)
  extension : data.length < extensionStart data + 10 ∨ ExtensionAccepted data

end Format

theorem wordAt_eq_word {data : Bytes} {position : Nat} (h : position + 2 ≤ data.length) :
    wordAt data position = Format.word data position := by
  have hlow : position < data.length := by omega
  have hhigh : position + 1 < data.length := by omega
  have hbytes : (data.drop position).take 2 = [data[position], data[position + 1]] := by
    rw [List.drop_eq_getElem_cons hlow, List.drop_eq_getElem_cons hhigh]
    rfl
  have hlt := UInt8.toNat_lt data[position]
  have hlt' := UInt8.toNat_lt data[position + 1]
  have hpow : Nat.pow 256 2 = 65536 := rfl
  rw [wordAt, hbytes, Bytes.signed, Format.word, List.getElem?_eq_getElem hlow,
    List.getElem?_eq_getElem hhigh]
  change Int.bmod _ (Nat.pow 256 2) = _
  rw [hpow]
  simp only [List.foldr_cons, List.foldr_nil, Option.getD_some, Nat.mul_zero, Nat.add_zero]
  split_ifs with hsmall
  · rw [Int.bmod_eq_of_le] <;> omega
  · rw [Int.bmod_def]
    omega

theorem Bytes.signedList_eq_map (size count : Nat) (bytes : Bytes) : signedList size count bytes =
    (List.range count).map fun i => signed ((bytes.drop (size * i)).take size) := by
  induction count generalizing bytes with
  | zero => rfl
  | succ count ih =>
    rw [signedList, ih, List.range_succ_eq_map, List.map_cons, List.map_map]
    simp only [Function.comp_def, List.drop_drop, Nat.mul_zero, List.drop_zero, Nat.mul_succ,
      Nat.add_comm size]

/-- The words of a part, one by one. -/
theorem signedList_slice {s : Span} {data : Bytes} {count : Nat} (hsize : s.size = 2 * count)
    (h : s.stop ≤ data.length) : Bytes.signedList 2 count (s.slice data) =
      (List.range count).map fun i => Format.word data (s.start + 2 * i) := by
  rw [Bytes.signedList_eq_map]
  apply List.map_congr_left
  intro i hi
  rw [List.mem_range] at hi
  rw [Span.stop, hsize] at h
  rw [← wordAt_eq_word (by omega), wordAt, Span.slice, List.drop_take, List.take_take,
    List.drop_drop]
  congr 2
  omega

theorem exists_forall₂_iff {α β : Type} {R : α → β → Prop} {xs : List α} :
    (∃ ys, List.Forall₂ R xs ys) ↔ ∀ x ∈ xs, ∃ y, R x y := by
  induction xs with
  | nil => simp
  | cons x xs ih =>
    rw [List.forall_mem_cons, ← ih]
    constructor
    · rintro ⟨_, h⟩
      cases h with
      | cons hx hxs => exact ⟨⟨_, hx⟩, _, hxs⟩
    · rintro ⟨⟨y, hx⟩, ys, hxs⟩
      exact ⟨y :: ys, .cons hx hxs⟩

theorem textAt_slice {s : Span} {data text : Bytes} {position : Nat} :
    TextAt (s.slice data) position text ↔ TextAt (data.take s.stop) (s.start + position) text := by
  rw [TextAt, TextAt, Span.slice, List.take_drop, List.drop_drop, Span.stop]

theorem exists_textAt_iff {data : Bytes} {start stop : Nat} :
    (∃ text, TextAt (data.take stop) start text) ↔ Format.Terminated data start stop := by
  have hmem : (∃ text, TextAt (data.take stop) start text) ↔ 0 ∈ (data.take stop).drop start := by
    constructor
    · rintro ⟨text, -, rest, heq⟩
      rw [heq]
      exact List.mem_append_right text List.mem_cons_self
    · intro h
      obtain ⟨text, rest, heq, htext⟩ := List.eq_append_cons_of_mem h
      exact ⟨text, htext, rest, heq⟩
  rw [hmem, List.mem_iff_getElem?]
  constructor
  · rintro ⟨i, hi⟩
    rw [List.getElem?_drop, List.getElem?_take] at hi
    split_ifs at hi with hstop
    exact ⟨start + i, Nat.le_add_right start i, hstop, hi⟩
  · rintro ⟨i, hstart, hstop, hi⟩
    refine ⟨i - start, ?_⟩
    rw [List.getElem?_drop, Nat.add_sub_cancel' hstart, List.getElem?_take, if_pos hstop]
    exact hi

theorem exists_slotAt_iff {s : Span} {data : Bytes} {offset : Int} :
    (∃ slot, SlotAt (s.slice data) offset slot) ↔ offset = -1 ∨ offset = -2 ∨
      0 ≤ offset ∧ Format.Terminated data (s.start + offset.toNat) s.stop := by
  constructor
  · rintro ⟨slot, hslot⟩
    cases slot with
    | absent => exact .inl hslot
    | canceled => exact .inr (.inl hslot)
    | present text =>
      obtain ⟨position, rfl, htext⟩ := hslot
      rw [textAt_slice] at htext
      refine .inr (.inr ⟨Int.natCast_nonneg position, ?_⟩)
      exact exists_textAt_iff.1 ⟨text, htext⟩
  · rintro (hoffset | hoffset | ⟨hoffset, hterminated⟩)
    · exact ⟨.absent, hoffset⟩
    · exact ⟨.canceled, hoffset⟩
    · obtain ⟨text, htext⟩ := exists_textAt_iff.2 hterminated
      refine ⟨.present text, offset.toNat, (Int.toNat_of_nonneg hoffset).symm, ?_⟩
      exact textAt_slice.2 htext

theorem TextAt.takeWhile_eq {table text : Bytes} {position : Nat} (h : TextAt table position text) :
    (table.drop position).takeWhile (· != 0) = text := by
  obtain ⟨htext, rest, heq⟩ := h
  have hne : ∀ b ∈ text, (b != 0) = true := by
    intro b hb
    rw [bne_iff_ne]
    rintro rfl
    exact htext hb
  rw [heq, List.takeWhile_append_of_pos hne]
  simp

namespace Layout

variable {l : Layout} {data : Bytes}

/-- Where the sections stand that are checked. -/
def places (l : Layout) : Format.Places where
  flags := l.flags.start
  flagCount := l.flagCount
  offsets := l.offsets.start
  stringCount := l.stringCount
  names := l.nameOffsets.start
  nameCount := l.nameCount
  table := l.table.start
  stop := l.table.stop

theorem offsets_stop_le (l : Layout) : l.offsets.stop ≤ l.nameOffsets.stop :=
  Nat.le_add_right _ _

theorem nameOffsets_stop_le (l : Layout) : l.nameOffsets.stop ≤ l.table.stop :=
  Nat.le_add_right _ _

theorem storedOffsets_eq (h : l.table.stop ≤ data.length) :
    l.storedOffsets data = (List.range l.stringCount).map (l.places.offset data) := by
  have hstop := Nat.le_trans l.offsets_stop_le (Nat.le_trans l.nameOffsets_stop_le h)
  rw [storedOffsets, signedList_slice rfl hstop]
  rfl

theorem storedNameOffsets_eq (h : l.table.stop ≤ data.length) : l.storedNameOffsets data =
    (List.range l.nameCount).map fun i => Format.word data (l.places.names + 2 * i) := by
  have hstop := Nat.le_trans l.nameOffsets_stop_le h
  rw [storedNameOffsets, signedList_slice rfl hstop]
  rfl

theorem isFlag_slice_iff {s : Span} (h : s.stop ≤ data.length) : (∀ b ∈ s.slice data, IsFlag b) ↔
    ∀ i < s.size, ∃ b, data[s.start + i]? = some b ∧ IsFlag b := by
  have hget := fun i hi => @Span.getElem?_slice s data i hi
  have hlength := Span.length_slice h
  constructor
  · intro hflags i hi
    have hlt : i < (s.slice data).length := by omega
    refine ⟨(s.slice data)[i], ?_, hflags _ (List.getElem_mem hlt)⟩
    rw [← hget i hi, List.getElem?_eq_getElem hlt]
  · intro hflags b hb
    obtain ⟨i, hi, rfl⟩ := List.mem_iff_getElem.1 hb
    obtain ⟨b, hget', hb⟩ := hflags i (by omega)
    rw [← hget i (by omega), List.getElem?_eq_getElem hi, Option.some.injEq] at hget'
    rwa [hget']

theorem exists_decodeValues_iff (l : Layout) (data : Bytes) :
    (∃ values, l.decodeValues data = .ok values) ↔ l.places.Accepted data := by
  simp only [decodeValues_eq_ok_iff]
  constructor
  · rintro ⟨values, hinside, hflags, -, -, hstrings⟩
    refine ⟨hinside, ?_, ?_⟩
    · exact (isFlag_slice_iff (Nat.le_trans l.flags_stop_le hinside)).1 hflags
    · have hslots := exists_forall₂_iff.1 ⟨_, hstrings⟩
      rw [storedOffsets_eq hinside, List.forall_mem_map] at hslots
      intro i hi
      exact exists_slotAt_iff.1 (hslots i (List.mem_range.2 hi))
  · rintro ⟨hinside, hflags, hstrings⟩
    have hslots : ∀ offset ∈ l.storedOffsets data, ∃ slot, SlotAt (l.table.slice data) offset slot := by
      rw [storedOffsets_eq hinside, List.forall_mem_map]
      intro i hi
      exact exists_slotAt_iff.2 (hstrings i (List.mem_range.1 hi))
    obtain ⟨slots, hslots⟩ := exists_forall₂_iff.2 hslots
    refine ⟨⟨_, _, slots⟩, hinside, ?_, rfl, rfl, hslots⟩
    exact (isFlag_slice_iff (Nat.le_trans l.flags_stop_le hinside)).2 hflags

/-- The strings that were decoded take up what the format counts for them. -/
theorem totalSize_eq {values : Values} (h : l.decodeValues data = .ok values) :
    Slot.totalSize values.strings = l.places.stringsSize data := by
  obtain ⟨hinside, -, -, -, hstrings⟩ := decodeValues_eq_ok_iff.1 h
  rw [storedOffsets_eq hinside] at hstrings
  have hsize : ∀ {offset slot}, SlotAt (l.table.slice data) offset slot →
      slot.storedSize = l.places.stringSize data offset := by
    intro offset slot hslot
    unfold Format.Places.stringSize
    cases slot with
    | absent =>
      rw [hslot]
      rfl
    | canceled =>
      rw [hslot]
      rfl
    | present text =>
      obtain ⟨position, rfl, htext⟩ := hslot
      rw [textAt_slice] at htext
      rw [if_neg (by omega), Int.toNat_natCast]
      exact congrArg (·.length + 1) htext.takeWhile_eq.symm
  rw [Format.Places.stringsSize]
  change _ = (List.range l.stringCount).foldr _ 0
  -- The induction is on the offsets, which need not be those of a whole layout.
  generalize List.range l.stringCount = indices at hstrings
  generalize values.strings = slots at hstrings
  induction indices generalizing slots with
  | nil =>
    cases hstrings
    rfl
  | cons i indices ih =>
    cases hstrings with
    | cons hslot hslots =>
      rw [List.foldr_cons, ← ih _ hslots, ← hsize hslot]
      rfl

end Layout

namespace Format

variable {data : Bytes}

def header (data : Bytes) : Header where
  width := if word data 0 = 0o432 then .narrow else .wide
  nameSize := count data 2
  flagCount := count data 4
  numberCount := count data 6
  stringCount := count data 8
  tableSize := count data 10

def extensionHeader (data : Bytes) : ExtensionHeader where
  width := (header data).width
  start := extensionStart data
  flagCount := count data (extensionStart data)
  numberCount := count data (extensionStart data + 2)
  stringCount := count data (extensionStart data + 4)
  tableSize := count data (extensionStart data + 8)

theorem bytes_width (data : Bytes) : (header data).width.bytes = numberSize data := by
  unfold header numberSize
  split_ifs <;> rfl

/-- The header has an even size, so only the names and the flags move the numbers. -/
theorem numbers_start_header (data : Bytes) : (header data).layout.numbers.start =
    12 + count data 2 + count data 4 + (count data 2 + count data 4) % 2 := by
  have hparity : (12 + count data 2 + count data 4) % 2 = (count data 2 + count data 4) % 2 := by
    omega
  rw [← hparity]
  rfl

theorem places_standard (data : Bytes) : (header data).layout.places = standard data := by
  have hbytes := bytes_width data
  have hnumbers := numbers_start_header data
  simp only [Layout.places, Layout.table, Layout.nameOffsets, Layout.offsets, Layout.numbers,
    Span.stop] at hnumbers ⊢
  rw [hnumbers, standard, ← hbytes]
  rfl

theorem extensionStart_header (data : Bytes) :
    (header data).extensionStart = extensionStart data := by
  rw [Header.extensionStart, roundUpEven, extensionStart, ← places_standard]
  rfl

/-- The extension begins at an even place, so only its flags move its numbers. -/
theorem numbers_start_extensionHeader (data : Bytes) :
    (extensionHeader data).layout.numbers.start = extensionStart data + 10 +
      count data (extensionStart data) + count data (extensionStart data) % 2 := by
  have heven : extensionStart data % 2 = 0 := by
    unfold extensionStart
    omega
  have hparity : (extensionStart data + 10 + count data (extensionStart data)) % 2 =
      count data (extensionStart data) % 2 := by
    omega
  rw [← hparity]
  rfl

theorem places_extension (data : Bytes) :
    (extensionHeader data).layout.places = extension data := by
  have hbytes := bytes_width data
  have hnumbers := numbers_start_extensionHeader data
  simp only [Layout.places, Layout.table, Layout.nameOffsets, Layout.offsets, Layout.numbers,
    Span.stop] at hnumbers ⊢
  rw [hnumbers, extension, ← hbytes]
  rfl

theorem word_eq_natCast_iff {position n : Nat} :
    word data position = n ↔ 0 ≤ word data position ∧ n = count data position := by
  unfold count
  omega

theorem read_header_iff {h : Header} :
    Header.read data = .ok h ↔ HeaderAccepted data ∧ h = header data := by
  rw [Header.read_eq_ok_iff, Header.size]
  constructor
  · rintro ⟨hsize, hmagic, hnames, hflags, hnumbers, hstrings, htable⟩
    rw [wordAt_eq_word (by omega)] at hmagic hnames hflags hnumbers hstrings htable
    rw [word_eq_natCast_iff] at hnames hflags hnumbers hstrings htable
    refine ⟨⟨hsize, ?_, ?_⟩, ?_⟩
    · rw [hmagic]
      cases h.width with
      | narrow => exact .inl rfl
      | wide => exact .inr rfl
    · simp only [List.forall_mem_cons, List.not_mem_nil, false_implies, implies_true, and_true]
      exact ⟨hnames.1, hflags.1, hnumbers.1, hstrings.1, htable.1⟩
    · have hwidth : h.width = (header data).width := by
        rw [header, hmagic]
        cases h.width <;> rfl
      cases h
      simp only at hwidth
      rw [header, Header.mk.injEq]
      exact ⟨hwidth, hnames.2, hflags.2, hnumbers.2, hstrings.2, htable.2⟩
  · rintro ⟨⟨hsize, hmagic, hcounts⟩, rfl⟩
    simp only [List.forall_mem_cons, List.not_mem_nil, false_implies, implies_true, and_true]
      at hcounts
    rw [wordAt_eq_word (by omega), wordAt_eq_word (by omega), wordAt_eq_word (by omega),
      wordAt_eq_word (by omega), wordAt_eq_word (by omega), wordAt_eq_word (by omega)]
    simp only [word_eq_natCast_iff]
    refine ⟨hsize, ?_, ⟨hcounts.1, rfl⟩, ⟨hcounts.2.1, rfl⟩, ⟨hcounts.2.2.1, rfl⟩,
      ⟨hcounts.2.2.2.1, rfl⟩, ⟨hcounts.2.2.2.2, rfl⟩⟩
    rcases hmagic with hmagic | hmagic
    · rw [header, hmagic]
      rfl
    · rw [header, hmagic]
      rfl

theorem read_extensionHeader_iff {h : ExtensionHeader}
    (hsize : extensionStart data + 10 ≤ data.length) :
    ExtensionHeader.read (header data).width (extensionStart data) data = .ok h ↔
      (∀ position ∈ [0, 2, 4, 6, 8], 0 ≤ word data (extensionStart data + position)) ∧
        h = extensionHeader data := by
  rw [ExtensionHeader.read_eq_ok_iff]
  rw [wordAt_eq_word (by omega), wordAt_eq_word (by omega), wordAt_eq_word (by omega),
    wordAt_eq_word (by omega), wordAt_eq_word (by omega)]
  simp only [word_eq_natCast_iff, List.forall_mem_cons, List.not_mem_nil, false_implies,
    implies_true, and_true, Nat.add_zero]
  constructor
  · rintro ⟨hwidth, hstart, hflags, hnumbers, hstrings, hused, htable⟩
    refine ⟨⟨hflags.1, hnumbers.1, hstrings.1, hused, htable.1⟩, ?_⟩
    cases h
    simp only at hwidth hstart
    rw [extensionHeader, ExtensionHeader.mk.injEq]
    exact ⟨hwidth, hstart, hflags.2, hnumbers.2, hstrings.2, htable.2⟩
  · rintro ⟨⟨hflags, hnumbers, hstrings, hused, htable⟩, rfl⟩
    exact ⟨rfl, rfl, ⟨hflags, rfl⟩, ⟨hnumbers, rfl⟩, ⟨hstrings, rfl⟩, hused, ⟨htable, rfl⟩⟩

end Format

/-- A name in the table after the strings, by its place in the data. -/
theorem nameAt_slice_iff {s : Span} {data name : Bytes} {before : Nat} {offset : Int} :
    NameAt ((s.slice data).drop before) offset name ↔ ∃ position : Nat, offset = position ∧
      TextAt (data.take s.stop) (s.start + before + position) name ∧ Bytes.Utf8.IsText name := by
  have htext : ∀ position : Nat, TextAt ((s.slice data).drop before) position name ↔
      TextAt (data.take s.stop) (s.start + before + position) name := by
    intro position
    rw [Nat.add_assoc, ← textAt_slice, TextAt, TextAt, List.drop_drop]
  simp only [NameAt, htext]

theorem exists_nameAt_iff {s : Span} {data : Bytes} {before : Nat} {offset : Int} :
    (∃ name, NameAt ((s.slice data).drop before) offset name) ↔
      ∃ position : Nat, offset = position ∧ ∃ name, Bytes.Utf8.IsText name ∧
        TextAt (data.take s.stop) (s.start + before + position) name := by
  simp only [nameAt_slice_iff]
  constructor
  · rintro ⟨name, position, hoffset, hname, hutf8⟩
    exact ⟨position, hoffset, name, hutf8, hname⟩
  · rintro ⟨position, hoffset, name, hutf8, hname⟩
    exact ⟨name, position, hoffset, hname, hutf8⟩

/-- No check of the size is missing: where there is a name, its place shows that the strings end
inside of the table, and without names there are no strings. -/
theorem stringsSize_le {h : ExtensionHeader} {data : Bytes}
    (hnames : h.layout.places.NamesAccepted data) :
    h.layout.places.stringsSize data ≤ h.tableSize := by
  by_cases hcount : h.layout.nameCount = 0
  · have hstrings : h.layout.places.stringCount = 0 := by
      change h.flagCount + h.numberCount + h.stringCount = 0 at hcount
      change h.stringCount = 0
      omega
    rw [Format.Places.stringsSize, hstrings]
    exact Nat.zero_le _
  · obtain ⟨position, -, name, -, htext⟩ := hnames 0 (Nat.pos_of_ne_zero hcount)
    obtain ⟨i, hstart, hstop, -⟩ := exists_textAt_iff.1 ⟨name, htext⟩
    change i < h.layout.places.table + h.tableSize at hstop
    omega

theorem exists_decodeExtension_iff (h : ExtensionHeader) (data : Bytes) :
    (∃ x, Extension.decode h data = .ok x) ↔
      h.layout.places.Accepted data ∧ h.layout.places.NamesAccepted data := by
  simp only [Extension.decode_eq_ok_iff]
  constructor
  · rintro ⟨x, values, names, hvalues, -, hnames, -⟩
    have haccepted := (h.layout.exists_decodeValues_iff data).1 ⟨values, hvalues⟩
    have hall := exists_forall₂_iff.1 ⟨names, hnames⟩
    rw [Layout.storedNameOffsets_eq haccepted.inside, List.forall_mem_map,
      Layout.totalSize_eq hvalues] at hall
    refine ⟨haccepted, ?_⟩
    intro i hi
    exact exists_nameAt_iff.1 (hall i (List.mem_range.2 hi))
  · rintro ⟨haccepted, hnames⟩
    obtain ⟨values, hvalues⟩ := (h.layout.exists_decodeValues_iff data).2 haccepted
    have hsize := Layout.totalSize_eq hvalues
    have hall : ∀ offset ∈ h.layout.storedNameOffsets data, ∃ name,
        NameAt ((h.layout.table.slice data).drop (Slot.totalSize values.strings)) offset name := by
      rw [Layout.storedNameOffsets_eq haccepted.inside, List.forall_mem_map, hsize]
      intro i hi
      exact exists_nameAt_iff.2 (hnames i (List.mem_range.1 hi))
    obtain ⟨names, hnames'⟩ := exists_forall₂_iff.2 hall
    refine ⟨_, values, names, hvalues, ?_, hnames', rfl⟩
    rw [Span.length_slice haccepted.inside, hsize]
    exact stringsSize_le hnames

theorem exists_readNames_iff {data : Bytes} (h : (Format.standard data).Accepted data) :
    (∃ names, (Format.header data).readNames data = .ok names) ↔
      Format.Terminated data 12 (12 + Format.count data 2) := by
  have hinside := h.inside
  rw [← Format.places_standard] at hinside
  have hstop : (Format.header data).names.stop ≤ data.length :=
    Nat.le_trans (Nat.le_add_right _ _)
      (Nat.le_trans (Format.header data).layout.flags_stop_le hinside)
  simp only [Header.readNames_eq_ok_iff, hstop, true_and, textAt_slice]
  exact exists_textAt_iff

theorem exists_extension_iff (data : Bytes) :
    (∃ extension, Entry.decodeExtension (Format.header data) data = .ok extension) ↔
      data.length < Format.extensionStart data + 10 ∨ Format.ExtensionAccepted data := by
  simp only [Entry.decodeExtension_eq_ok_iff, Format.extensionStart_header]
  constructor
  · rintro ⟨extension, hextension⟩
    cases extension with
    | none => exact .inl hextension
    | some x =>
      obtain ⟨hsize, header, hread, hdecode⟩ := hextension
      obtain ⟨hcounts, rfl⟩ := (Format.read_extensionHeader_iff hsize).1 hread
      have hboth := (exists_decodeExtension_iff _ data).1 ⟨x, hdecode⟩
      rw [Format.places_extension] at hboth
      exact .inr ⟨hcounts, hboth.1, hboth.2⟩
  · intro hextension
    by_cases hsize : data.length < Format.extensionStart data + 10
    · exact ⟨none, hsize⟩
    · obtain ⟨hcounts, hsections, hnames⟩ := hextension.resolve_left hsize
      rw [← Format.places_extension] at hsections hnames
      obtain ⟨x, hx⟩ := (exists_decodeExtension_iff _ data).2 ⟨hsections, hnames⟩
      have hsize := Nat.not_lt.1 hsize
      exact ⟨some x, hsize, _, (Format.read_extensionHeader_iff hsize).2 ⟨hcounts, rfl⟩, hx⟩

/-- Bytes are decoded exactly if they are in the declared format. -/
theorem decode_accepts_iff (data : Bytes) :
    (∃ e, Entry.decode data = .ok e) ↔ Format.Accepted data := by
  simp only [Entry.decode_eq_ok_iff, Format.read_header_iff]
  constructor
  · rintro ⟨e, -, header, ⟨hheader, rfl⟩, hnames, hvalues, hextension⟩
    have hsections := (Layout.exists_decodeValues_iff _ data).1 ⟨_, hvalues⟩
    rw [Format.places_standard] at hsections
    have hterminated := (exists_readNames_iff hsections).1 ⟨_, hnames⟩
    exact ⟨hheader, hsections, hterminated, (exists_extension_iff data).1 ⟨_, hextension⟩⟩
  · rintro ⟨hheader, hsections, hterminated, hextension⟩
    obtain ⟨names, hnames⟩ := (exists_readNames_iff hsections).2 hterminated
    obtain ⟨extension, hextension⟩ := (exists_extension_iff data).2 hextension
    rw [← Format.places_standard] at hsections
    obtain ⟨values, hvalues⟩ := (Layout.exists_decodeValues_iff _ data).2 hsections
    exact ⟨⟨data, names, values, extension⟩, rfl, _, ⟨hheader, rfl⟩, hnames, hvalues, hextension⟩

end TerminalCaps

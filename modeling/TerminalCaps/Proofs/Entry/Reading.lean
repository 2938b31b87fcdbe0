import TerminalCaps.Proofs.Entry.Acceptance
import TerminalCaps.Proofs.Entry.RoundTrip

/-!
Reading on demand. The values of a decoded entry can also be read one by one from its sections, by a
reader that has a way out wherever the data might not be as they should. It never takes one.
-/
namespace TerminalCaps

/-- The bytes of a part, none if it is not all there. -/
def Span.contents (s : Span) (data : Bytes) : Bytes := (s.read data).toOption.getD []

theorem Span.contents_eq {s : Span} {data : Bytes} (h : s.stop ≤ data.length) :
    s.contents data = s.slice data := by
  rw [contents, read, if_pos h]
  rfl

/-- The signed number at an index of a section, if the section has one there. -/
def Bytes.numberAt? (size : Nat) (bytes : Bytes) (index : Nat) : Option Int :=
  ((Span.mk (size * index) size).read bytes).toOption.map signed

theorem Bytes.getElem?_signedList {size count : Nat} {bytes : Bytes} (hsize : 0 < size)
    (h : bytes.length = size * count) (i : Nat) :
    (signedList size count bytes)[i]? = numberAt? size bytes i := by
  rw [signedList_eq_map, List.getElem?_map, numberAt?, Span.read]
  rcases Nat.lt_or_ge i count with hi | hi
  · have hstop : size * i + size ≤ size * count := Nat.mul_le_mul_left size hi
    rw [List.getElem?_range hi, if_pos (by rwa [h])]
    rfl
  · have hstop : size * count ≤ size * i := Nat.mul_le_mul_left size hi
    rw [List.getElem?_eq_none (by rwa [List.length_range]), if_neg]
    · rfl
    · show ¬ size * i + size ≤ bytes.length
      omega

/-- The string of an offset, absent if there is none. -/
def Slot.ofOffset (table : Bytes) (offset : Int) : Slot :=
  if offset = -2 then .canceled
  else if offset < 0 then .absent
  else match decodeString table offset.toNat with
    | .ok text => .present text
    | .error _ => .absent

theorem Slot.ofOffset_eq {table : Bytes} {offset : Int} {slot : Slot}
    (h : SlotAt table offset slot) : ofOffset table offset = slot := by
  unfold ofOffset
  cases slot with
  | absent =>
    cases h
    rfl
  | canceled =>
    cases h
    rfl
  | present text =>
    rcases h with ⟨position, rfl, htext⟩
    rw [if_neg (by omega), if_neg (by omega), Int.toNat_natCast, decodeString_eq_ok_iff.2 htext]

theorem Slot.text?_eq_none_iff {slot : Slot} :
    slot.text? = none ↔ slot = .absent ∨ slot = .canceled := by
  cases slot <;> simp [text?]

theorem slotAt_cases {table : Bytes} {offset : Int} {slot : Slot} (h : SlotAt table offset slot) :
    (slot = .absent ↔ offset = -1) ∧ (slot = .canceled ↔ offset = -2) ∧
      (offset ≠ -1 → offset ≠ -2 → 0 ≤ offset ∧ ∃ text, slot = .present text ∧
        TextAt table offset.toNat text) := by
  cases slot with
  | absent =>
    cases h
    simp
  | canceled =>
    cases h
    simp
  | present text =>
    rcases h with ⟨position, rfl, htext⟩
    refine ⟨⟨nofun, by omega⟩, ⟨nofun, by omega⟩, ?_⟩
    intro _ _
    exact ⟨by omega, text, rfl, htext⟩

namespace Layout

variable {l : Layout} {data : Bytes} {values : Values}

/-- The sections in the order in which they stand. -/
def sections (l : Layout) : List Span := [l.flags, l.numbers, l.offsets, l.nameOffsets, l.table]

def flagIn? (l : Layout) (data : Bytes) (i : Nat) : Option Bool :=
  (l.flags.contents data)[i]?.map (· == 1)

def numberIn? (l : Layout) (data : Bytes) (i : Nat) : Option Int :=
  (l.numbers.contents data).numberAt? l.width.bytes i

def offsetIn? (l : Layout) (data : Bytes) (i : Nat) : Option Int :=
  Bytes.numberAt? 2 (l.offsets.contents data) i

def slotIn (l : Layout) (data : Bytes) (i : Nat) : Slot :=
  (l.offsetIn? data i).elim .absent (Slot.ofOffset (l.table.contents data))

/-- The sections stand in the data one after another, and what is read from them are the values. -/
structure Shows (l : Layout) (data : Bytes) (values : Values) : Prop where
  inside : ∀ s ∈ l.sections, s.start ≤ s.stop ∧ s.stop ≤ data.length
  apart : l.sections.Pairwise fun a b => a.stop ≤ b.start
  even : l.numbers.start % 2 = 0
  whole : l.width.bytes ∣ l.numbers.size
  contents : ∀ s ∈ l.sections, s.read data = .ok (s.contents data)
  counts : l.flags.stop - l.flags.start = l.flagCount ∧
    (l.numbers.stop - l.numbers.start) / l.width.bytes = l.numberCount ∧
    (l.offsets.stop - l.offsets.start) / 2 = l.stringCount
  flagCount : values.flags.length = l.flagCount
  numberCount : values.numbers.length = l.numberCount
  stringCount : values.strings.length = l.stringCount
  flag : ∀ i, values.flags[i]? = l.flagIn? data i
  number : ∀ i, values.numbers[i]? = (l.numberIn? data i).map decodeNumber
  slot : ∀ i, values.strings[i]? = (l.offsetIn? data i).map fun _ => l.slotIn data i
  string : ∀ i < l.stringCount, ∃ offset, l.offsetIn? data i = some offset ∧
    (l.slotIn data i = .absent ↔ offset = -1) ∧ (l.slotIn data i = .canceled ↔ offset = -2) ∧
    (offset ≠ -1 → offset ≠ -2 → 0 ≤ offset ∧ ∃ text, l.slotIn data i = .present text ∧
      TextAt (l.table.contents data) offset.toNat text)

theorem bounds_of_mem_sections {s : Span} (h : s ∈ l.sections) :
    l.flags.start ≤ s.start ∧ s.stop ≤ l.table.stop := by
  simp only [sections, List.mem_cons, List.not_mem_nil, or_false] at h
  rcases h with rfl | rfl | rfl | rfl | rfl <;>
    simp only [flags, numbers, offsets, nameOffsets, table, Span.stop, roundUpEven] <;> omega

theorem pairwise_sections (l : Layout) : l.sections.Pairwise fun a b => a.stop ≤ b.start := by
  simp only [sections, List.pairwise_cons, List.forall_mem_cons, List.not_mem_nil, false_implies,
    implies_true, and_true, List.Pairwise.nil, flags, numbers, offsets, nameOffsets, table,
    Span.stop, roundUpEven]
  omega

theorem rel_getElem? {α β : Type} {R : α → β → Prop} {xs : List α} {ys : List β}
    (h : List.Forall₂ R xs ys) (i : Nat) : Option.Rel R xs[i]? ys[i]? := by
  induction h generalizing i with
  | nil => exact .none
  | cons hfirst _ ih =>
    cases i with
    | zero => exact .some hfirst
    | succ i => exact ih i

/-- The offset of every string leads to the string. -/
theorem slotAt_slotIn (h : l.decodeValues data = .ok values) (i : Nat) :
    Option.Rel (fun offset slot => SlotAt (l.table.contents data) offset slot ∧
      l.slotIn data i = slot) (l.offsetIn? data i) values.strings[i]? := by
  rcases decodeValues_eq_ok_iff.1 h with ⟨hinside, -, -, -, hstrings⟩
  have hoffsets : l.offsets.stop ≤ data.length :=
    Nat.le_trans l.offsets_stop_le (Nat.le_trans l.nameOffsets_stop_le hinside)
  have hstored : (l.storedOffsets data)[i]? = l.offsetIn? data i := by
    rw [offsetIn?, Span.contents_eq hoffsets]
    exact Bytes.getElem?_signedList (by decide) (Span.length_slice hoffsets) i
  have hrel := rel_getElem? hstrings i
  rw [hstored, ← Span.contents_eq hinside] at hrel
  unfold slotIn
  generalize l.offsetIn? data i = stored, values.strings[i]? = found at hrel ⊢
  cases hrel with
  | none => exact .none
  | some hslot => exact .some ⟨hslot, Slot.ofOffset_eq hslot⟩

/-- What is decoded can be read on demand. -/
theorem shows_of_decodeValues (h : l.decodeValues data = .ok values) : l.Shows data values := by
  rcases decodeValues_eq_ok_iff.1 h with ⟨hinside, -, hflags, hnumbers, hstrings⟩
  have hstop : ∀ s ∈ l.sections, s.stop ≤ data.length :=
    fun s hs => Nat.le_trans (bounds_of_mem_sections hs).2 hinside
  have hstringCount : values.strings.length = l.stringCount := by
    rw [← hstrings.length_eq, storedOffsets, Bytes.length_signedList]
  have hwidth := l.width.bytes_pos
  have hflagsStop : l.flags.stop ≤ data.length := hstop _ (by simp [sections])
  have hnumbersStop : l.numbers.stop ≤ data.length := hstop _ (by simp [sections])
  exact {
    inside := fun s hs => ⟨Nat.le_add_right _ _, hstop s hs⟩
    apart := l.pairwise_sections
    even := by
      show roundUpEven l.flags.stop % 2 = 0
      unfold roundUpEven
      omega
    whole := Nat.dvd_mul_right _ _
    contents := by
      intro s hs
      exact Span.read_eq_ok_iff.2 ⟨hstop s hs, (Span.contents_eq (hstop s hs)).symm⟩
    counts := by
      simp only [Span.stop, Nat.add_sub_cancel_left]
      exact ⟨rfl, Nat.mul_div_cancel_left _ hwidth, Nat.mul_div_cancel_left _ (by decide)⟩
    flagCount := by
      rw [← hflags, List.length_map, Span.length_slice hflagsStop]
      rfl
    numberCount := by
      rw [← hnumbers, List.length_map, Bytes.length_signedList]
    stringCount := hstringCount
    flag := by
      intro i
      rw [← hflags, List.getElem?_map, flagIn?, Span.contents_eq hflagsStop]
    number := by
      intro i
      rw [← hnumbers, List.getElem?_map, numberIn?, Span.contents_eq hnumbersStop,
        Bytes.getElem?_signedList hwidth (Span.length_slice hnumbersStop)]
    slot := by
      intro i
      have hrel := slotAt_slotIn h i
      generalize l.offsetIn? data i = stored, values.strings[i]? = found at hrel ⊢
      cases hrel with
      | none => rfl
      | some hslot => exact congrArg some hslot.2.symm
    string := by
      intro i hi
      have hrel := slotAt_slotIn h i
      rw [List.getElem?_eq_getElem (by rwa [hstringCount])] at hrel
      generalize l.offsetIn? data i = stored at hrel ⊢
      cases hrel with
      | @some offset slot hslot =>
        rw [hslot.2]
        exact ⟨offset, rfl, slotAt_cases hslot.1⟩ }

theorem Shows.text (h : l.Shows data values) {i : Nat} (hi : i < l.stringCount) :
    ∃ offset, l.offsetIn? data i = some offset ∧
      ((l.slotIn data i).text? = none ↔ offset = -1 ∨ offset = -2) ∧
      (offset ≠ -1 → offset ≠ -2 → 0 ≤ offset ∧ ∃ text, (l.slotIn data i).text? = some text ∧
        TextAt (l.table.contents data) offset.toNat text) := by
  rcases h.string i hi with ⟨offset, hoffset, habsent, hcanceled, hpresent⟩
  refine ⟨offset, hoffset, ?_, ?_⟩
  · rw [Slot.text?_eq_none_iff, habsent, hcanceled]
  · intro hone htwo
    rcases hpresent hone htwo with ⟨hnonneg, text, htext, hat⟩
    rw [htext]
    exact ⟨hnonneg, text, rfl, hat⟩

end Layout

section Named

variable {β : Type} {names : List Bytes} {values : List β}

/-- The value of a name is the one at its first index. -/
theorem lookup_zip (h : names.length = values.length) (name : Bytes) :
    (names.zip values).lookup name = values[names.idxOf name]? := by
  induction names generalizing values with
  | nil =>
    rw [List.length_eq_zero_iff.1 h.symm]
    rfl
  | cons first names ih =>
    cases values with
    | nil => cases h
    | cons value values =>
      rw [List.zip_cons_cons, List.lookup_cons]
      by_cases hname : name = first
      · rw [hname, List.idxOf_cons_self, beq_self_eq_true]
        rfl
      · rw [List.idxOf_cons_ne _ (Ne.symm hname), beq_false_of_ne hname]
        exact ih (Nat.succ.inj h)

theorem exists_lookup_zip (h : names.length = values.length) {name : Bytes} (hname : name ∈ names) :
    names.idxOf name < values.length ∧ ∃ value, values[names.idxOf name]? = some value ∧
      (names.zip values).lookup name = some value := by
  have hlt : names.idxOf name < values.length := by
    rw [← h]
    exact List.idxOf_lt_length_iff.2 hname
  refine ⟨hlt, values[names.idxOf name], List.getElem?_eq_getElem hlt, ?_⟩
  rw [lookup_zip h, List.getElem?_eq_getElem hlt]

theorem mem_ordered_zip (h : names.length = values.length) (name : Bytes) :
    name ∈ Bytes.ordered ((names.zip values).map Prod.fst) ↔ name ∈ names := by
  rw [Bytes.mem_ordered, List.map_fst_zip (Nat.le_of_eq h)]

theorem zip_append_names (h : names.length = values.length) (others : List Bytes) :
    (names ++ others).zip values = names.zip values := by
  rw [← List.append_nil values, List.zip_append h, List.zip_nil_right, List.append_nil,
    List.append_nil]

end Named

/-- In a decoded extension, every kind of values has its own names, one for each of them. -/
theorem Extension.exists_names {h : ExtensionHeader} {data : Bytes} {x : Extension}
    (hdecode : decode h data = .ok x) :
    ∃ values flagNames numberNames stringNames, h.layout.decodeValues data = .ok values ∧
      List.Forall₂ (NameAt ((h.layout.table.slice data).drop (Slot.totalSize values.strings)))
        (h.layout.storedNameOffsets data) (flagNames ++ (numberNames ++ stringNames)) ∧
      flagNames.length = values.flags.length ∧ numberNames.length = values.numbers.length ∧
      stringNames.length = values.strings.length ∧
      x = ⟨flagNames.zip values.flags, numberNames.zip values.numbers,
        stringNames.zip values.strings⟩ := by
  rcases decode_eq_ok_iff.1 hdecode with ⟨values, names, hvalues, -, hnames, rfl⟩
  have hshows := Layout.shows_of_decodeValues hvalues
  have hflagCount : values.flags.length = h.flagCount := hshows.flagCount
  have hnumberCount : values.numbers.length = h.numberCount := hshows.numberCount
  have hstringCount : values.strings.length = h.stringCount := hshows.stringCount
  have hcount : names.length = h.flagCount + h.numberCount + h.stringCount := by
    rw [← hnames.length_eq]
    exact Bytes.length_signedList ..
  have hflags : (names.take h.flagCount).length = values.flags.length := by
    rw [List.length_take]
    omega
  have hnumbers : ((names.drop h.flagCount).take h.numberCount).length = values.numbers.length := by
    rw [List.length_take, List.length_drop]
    omega
  have hstrings : ((names.drop h.flagCount).drop h.numberCount).length = values.strings.length := by
    rw [List.length_drop, List.length_drop]
    omega
  refine ⟨values, _, _, _, hvalues, ?_, hflags, hnumbers, hstrings, ?_⟩
  · rw [List.take_append_drop, List.take_append_drop]
    exact hnames
  · rw [← zip_append_names hflags (names.drop h.flagCount),
      ← zip_append_names hnumbers ((names.drop h.flagCount).drop h.numberCount),
      List.take_append_drop, List.take_append_drop, ← hflagCount, ← hnumberCount]
    rfl

/-- What is read of an extension by name, at the first index of the name. -/
structure ExtensionHeader.Shows (h : ExtensionHeader) (data : Bytes) (e : Entry) (values : Values)
    (flagNames numberNames stringNames : List Bytes) : Prop where
  sections : h.layout.Shows data values
  stored : List.Forall₂
    (NameAt ((h.layout.table.contents data).drop (Slot.totalSize values.strings)))
    (h.layout.storedNameOffsets data) (flagNames ++ (numberNames ++ stringNames))
  listedFlag : ∀ name, name ∈ e.extendedFlagNames ↔ name ∈ flagNames
  listedNumber : ∀ name, name ∈ e.extendedNumberNames ↔ name ∈ numberNames
  listedString : ∀ name, name ∈ e.extendedStringNames ↔ name ∈ stringNames
  flag : ∀ name ∈ flagNames, flagNames.idxOf name < h.flagCount ∧
    ∃ value, h.layout.flagIn? data (flagNames.idxOf name) = some value ∧
      e.extendedFlag name = some value
  number : ∀ name ∈ numberNames, numberNames.idxOf name < h.numberCount ∧
    ∃ n, h.layout.numberIn? data (numberNames.idxOf name) = some n ∧
      e.extendedNumber name = decodeNumber n
  string : ∀ name ∈ stringNames, stringNames.idxOf name < h.stringCount ∧
    ∃ offset, h.layout.offsetIn? data (stringNames.idxOf name) = some offset ∧
      (e.extendedString name = none ↔ offset = -1 ∨ offset = -2) ∧
      (offset ≠ -1 → offset ≠ -2 → 0 ≤ offset ∧ ∃ text, e.extendedString name = some text ∧
        TextAt (h.layout.table.contents data) offset.toNat text)

theorem Extension.shows_of_decode {h : ExtensionHeader} {data : Bytes} {x : Extension} {e : Entry}
    (he : e.extension = some x) (hdecode : Extension.decode h data = .ok x) :
    ∃ values flagNames numberNames stringNames,
      h.Shows data e values flagNames numberNames stringNames := by
  rcases exists_names hdecode with ⟨values, flagNames, numberNames, stringNames, hvalues, hnames,
    hflagNames, hnumberNames, hstringNames, rfl⟩
  have hshows := Layout.shows_of_decodeValues hvalues
  have hflags : e.extendedFlags = flagNames.zip values.flags := by
    rw [Entry.extendedFlags, he]
    rfl
  have hnumbers : e.extendedNumbers = numberNames.zip values.numbers := by
    rw [Entry.extendedNumbers, he]
    rfl
  have hstrings : e.extendedStrings = stringNames.zip values.strings := by
    rw [Entry.extendedStrings, he]
    rfl
  refine ⟨values, flagNames, numberNames, stringNames, ?_⟩
  exact {
    sections := hshows
    stored := by
      rw [Span.contents_eq (Layout.decodeValues_eq_ok_iff.1 hvalues).1]
      exact hnames
    listedFlag := by
      rw [Entry.extendedFlagNames, hflags]
      exact mem_ordered_zip hflagNames
    listedNumber := by
      rw [Entry.extendedNumberNames, hnumbers]
      exact mem_ordered_zip hnumberNames
    listedString := by
      rw [Entry.extendedStringNames, hstrings]
      exact mem_ordered_zip hstringNames
    flag := by
      intro name hname
      rcases exists_lookup_zip hflagNames hname with ⟨hlt, value, hvalue, hlookup⟩
      rw [hshows.flagCount] at hlt
      rw [hshows.flag] at hvalue
      rw [Entry.extendedFlag, hflags]
      exact ⟨hlt, value, hvalue, hlookup⟩
    number := by
      intro name hname
      rcases exists_lookup_zip hnumberNames hname with ⟨hlt, value, hvalue, hlookup⟩
      rw [hshows.numberCount] at hlt
      rw [hshows.number, Option.map_eq_some_iff] at hvalue
      rcases hvalue with ⟨n, hn, rfl⟩
      rw [Entry.extendedNumber, hnumbers, hlookup]
      exact ⟨hlt, n, hn, rfl⟩
    string := by
      intro name hname
      rcases exists_lookup_zip hstringNames hname with ⟨hlt, slot, hslot, hlookup⟩
      rw [hshows.stringCount] at hlt
      rcases hshows.text hlt with ⟨offset, hoffset, htext⟩
      rw [hshows.slot, hoffset, Option.map_some, Option.some.injEq] at hslot
      rw [Entry.extendedString, hstrings, hlookup, ← hslot]
      exact ⟨hlt, offset, hoffset, htext⟩ }

/-- The sections of a decoded entry stand in the data one after another, and every value that they
can be asked for is there: a reader of the sections comes to the same answers as the decoded entry,
and never to a place where it must give up. -/
theorem Entry.decode_shows {data : Bytes} {e : Entry} (h : decode data = .ok e) :
    ∃ header, Header.read data = .ok header ∧
      header.names.read data = .ok (header.names.contents data) ∧
      TextAt (header.names.contents data) 0 e.names ∧
      header.names.stop = header.layout.flags.start ∧
      header.layout.Shows data e.standard ∧
      (∀ i, e.flagAt i = (header.layout.flagIn? data i).getD false) ∧
      (∀ i, e.numberAt i = (header.layout.numberIn? data i).bind decodeNumber) ∧
      (∀ i, e.slotAt i = header.layout.slotIn data i) ∧
      ∀ x, e.extension = some x → ∃ xheader values flagNames numberNames stringNames,
        ExtensionHeader.read header.width header.extensionStart data = .ok xheader ∧
        (header.layout.sections ++ xheader.layout.sections).Pairwise (fun a b => a.stop ≤ b.start) ∧
        xheader.Shows data e values flagNames numberNames stringNames := by
  rcases decode_eq_ok_iff.1 h with ⟨-, header, hheader, hnames, hstandard, hextension⟩
  have hshows := Layout.shows_of_decodeValues hstandard
  rcases Header.readNames_eq_ok_iff.1 hnames with ⟨hinside, htext⟩
  rw [← Span.contents_eq hinside] at htext
  have hread : header.names.read data = .ok (header.names.contents data) :=
    Span.read_eq_ok_iff.2 ⟨hinside, (Span.contents_eq hinside).symm⟩
  refine ⟨header, hheader, hread, htext, rfl, hshows, ?_, ?_, ?_, ?_⟩
  · intro i
    rw [flagAt, hshows.flag]
  · intro i
    rw [numberAt, hshows.number]
    cases header.layout.numberIn? data i <;> rfl
  · intro i
    rw [slotAt, hshows.slot]
    unfold Layout.slotIn
    cases header.layout.offsetIn? data i <;> rfl
  · intro x hx
    rw [hx] at hextension
    rcases decodeExtension_eq_ok_iff.1 hextension with ⟨-, xheader, hxheader, hdecode⟩
    rcases Extension.shows_of_decode hx hdecode with
      ⟨values, flagNames, numberNames, stringNames, hnamed⟩
    refine ⟨xheader, values, flagNames, numberNames, stringNames, hxheader, ?_, hnamed⟩
    refine List.pairwise_append.2 ⟨hshows.apart, hnamed.sections.apart, ?_⟩
    intro a ha b hb
    have hstart : header.layout.table.stop ≤ xheader.layout.flags.start := by
      show _ ≤ xheader.start + ExtensionHeader.size
      rw [(ExtensionHeader.read_eq_ok_iff.1 hxheader).2.1, Header.extensionStart, roundUpEven]
      omega
    -- The table is the last of the standard sections, and the flags are the first of the extension.
    calc a.stop ≤ header.layout.table.stop := (Layout.bounds_of_mem_sections ha).2
      _ ≤ xheader.layout.flags.start := hstart
      _ ≤ b.start := (Layout.bounds_of_mem_sections hb).1

theorem EntrySource.decode_shows_mixedSource :
    let data := mixedSource.encode
    ∃ header, Header.read data = .ok header ∧
      header.layout.Shows data mixedSource.decoded.standard ∧
      (∀ i, mixedSource.decoded.slotAt i = header.layout.slotIn data i) ∧
      ∃ xheader values flagNames numberNames stringNames,
        ExtensionHeader.read header.width header.extensionStart data = .ok xheader ∧
        xheader.Shows data mixedSource.decoded values flagNames numberNames stringNames := by
  intro data
  rcases Entry.decode_shows (decode_encode mixedSource_wellFormed) with
    ⟨header, hheader, -, -, -, hshows, -, -, hslot, hextension⟩
  rcases hextension _ rfl with
    ⟨xheader, values, flagNames, numberNames, stringNames, hxheader, -, hnamed⟩
  exact ⟨header, hheader, hshows, hslot, xheader, values, flagNames, numberNames, stringNames,
    hxheader, hnamed⟩

end TerminalCaps

import TerminalCaps.Proofs.Entry.WrittenSections

/-! Decoding what was written gives the entry back, with its names, values and extension. -/
namespace TerminalCaps

/-- Counts that were written are read back at their places. -/
theorem wordAt_counts {counts : List Int} {i : Nat} {n : Int} (h : ∀ n ∈ counts, IsWord n)
    (hi : counts[i]? = some n) (before after : Bytes) :
    wordAt (before ++ (writeWords counts ++ after)) (before.length + 2 * i) = n := by
  obtain ⟨hlt, rfl⟩ := List.getElem?_eq_some_iff.1 hi
  exact wordAt_writeWords h hlt before after

theorem length_append_padding (bytes : Bytes) :
    (bytes ++ padding bytes.length).length = roundUpEven bytes.length := by
  rw [List.length_append, length_padding]
  rfl

theorem lookup_map_snd {α β γ : Type} [BEq α] (f : β → γ) (pairs : List (α × β)) (key : α) :
    (pairs.map fun pair => (pair.1, f pair.2)).lookup key = (pairs.lookup key).map f := by
  induction pairs with
  | nil => rfl
  | cons pair pairs ih =>
    rw [List.map_cons, List.lookup_cons, List.lookup_cons, ih]
    cases key == pair.1 <;> rfl

/-- Names of other kinds behind those of one kind do not matter for its values. -/
theorem zip_names {β γ : Type} (pairs : List (Bytes × β)) (f : β → γ) (others : List Bytes) :
    (pairs.map Prod.fst ++ others).zip (pairs.map (f ∘ Prod.snd)) =
      pairs.map fun pair => (pair.1, f pair.2) := by
  induction pairs with
  | nil => rw [List.map_nil, List.map_nil, List.map_nil, List.zip_nil_right]
  | cons pair pairs ih =>
    rw [List.map_cons, List.map_cons, List.map_cons, List.cons_append, List.zip_cons_cons, ih]
    rfl

namespace ExtensionSource

variable {x : ExtensionSource} {width : NumberWidth}

/-- The header of the written extension. -/
def header (x : ExtensionSource) (width : NumberWidth) (start : Nat) : ExtensionHeader where
  width := width
  start := start
  flagCount := x.flags.length
  numberCount := x.numbers.length
  stringCount := x.strings.length
  tableSize := x.sections.table.length

/-- What becomes of a written extension: each name with its value. -/
def decoded (x : ExtensionSource) : Extension where
  flags := x.flags.map fun flag => (flag.1, flag.2 == 1)
  numbers := x.numbers.map fun number => (number.1, decodeNumber number.2)
  strings := x.strings

theorem layout_header (x : ExtensionSource) (width : NumberWidth) (start : Nat) :
    (x.header width start).layout = x.sections.layout width (start + ExtensionHeader.size) := by
  simp [header, ExtensionHeader.layout, Sections.layout, sections, Nat.add_assoc]

theorem isWord_of_mem_counts (husage : x.usage ≤ maxCount) (h : x.sections.WellFormed width) :
    ∀ n ∈ x.counts, IsWord n := by
  have hflags := h.flagCount
  have hnumbers := h.numberCount
  have hstrings := h.stringCount
  simp only [sections, List.length_map] at hflags hnumbers hstrings
  simp only [counts, List.forall_mem_cons, List.not_mem_nil, false_implies, implies_true, and_true]
  exact ⟨isWord_of_le hflags, isWord_of_le hnumbers, isWord_of_le hstrings, isWord_of_le husage,
    isWord_of_le h.tableSize⟩

theorem read_encode (husage : x.usage ≤ maxCount) (h : x.sections.WellFormed width)
    (before : Bytes) : ExtensionHeader.read width before.length
      (before ++ x.encode width before.length) = .ok (x.header width before.length) := by
  have hcounts := isWord_of_mem_counts husage h
  have hword := fun i n (hi : x.counts[i]? = some n) => wordAt_counts hcounts hi before
    (x.sections.write width (before.length + ExtensionHeader.size))
  have husageAt := hword 3 x.usage rfl
  rw [ExtensionHeader.read_eq_ok_iff]
  refine ⟨rfl, rfl, hword 0 _ rfl, hword 1 _ rfl, hword 2 _ rfl, ?_, hword 4 _ rfl⟩
  rw [encode, husageAt]
  omega

theorem size_le_length_encode (x : ExtensionSource) (width : NumberWidth) (start : Nat) :
    ExtensionHeader.size ≤ (x.encode width start).length := by
  have hcounts : (writeWords x.counts).length = ExtensionHeader.size := length_writeWords x.counts
  rw [encode, List.length_append, hcounts]
  exact Nat.le_add_right _ _

theorem ofValues_decoded (x : ExtensionSource) :
    Extension.ofValues ⟨x.sections.flags.map (· == 1), x.sections.numbers.map decodeNumber,
      x.sections.strings⟩ x.sections.names = x.decoded := by
  have hflags : (x.sections.names).drop x.flags.length =
      x.numbers.map Prod.fst ++ x.strings.map Prod.fst :=
    List.drop_left' (List.length_map Prod.fst)
  have hnumbers : (x.numbers.map Prod.fst ++ x.strings.map Prod.fst).drop x.numbers.length =
      x.strings.map Prod.fst := List.drop_left' (List.length_map Prod.fst)
  have hstrings := zip_names x.strings id []
  rw [List.append_nil, Function.id_comp] at hstrings
  simp only [Extension.ofValues, sections, List.length_map, List.map_map] at hflags ⊢
  rw [hflags, hnumbers, zip_names, zip_names, hstrings, decoded]
  simp

theorem decode_encode (h : x.sections.WellFormed width) (before : Bytes) :
    Extension.decode (x.header width before.length) (before ++ x.encode width before.length) =
      .ok x.decoded := by
  rw [Extension.decode_eq_ok_iff, layout_header]
  have hlength : before.length + ExtensionHeader.size = (before ++ writeWords x.counts).length := by
    rw [List.length_append, length_writeWords]
    rfl
  have hdata : before ++ x.encode width before.length = (before ++ writeWords x.counts) ++
      (x.sections.write width (before ++ writeWords x.counts).length ++ []) := by
    rw [encode, hlength, List.append_nil, List.append_assoc]
  rw [hlength, hdata]
  refine ⟨_, x.sections.names, Sections.decodeValues_write h _ [], ?_, ?_, ofValues_decoded x⟩
  · rw [Sections.slice_table, Sections.table, List.length_append, Slot.length_flatMap_stored]
    exact Nat.le_add_right _ _
  · rw [Sections.slice_table, Sections.storedNameOffsets_write h]
    exact Sections.nameAt_offsetsFrom h

end ExtensionSource

namespace EntrySource

variable {s : EntrySource}

def header (s : EntrySource) : Header where
  width := s.width
  nameSize := (s.names ++ [0]).length
  flagCount := s.flags.length
  numberCount := s.numbers.length
  stringCount := s.strings.length
  tableSize := s.sections.table.length

theorem isWord_of_mem_counts (h : s.WellFormed) : ∀ n ∈ s.counts, IsWord n := by
  simp only [counts, List.forall_mem_cons, List.not_mem_nil, false_implies, implies_true, and_true]
  exact ⟨isWord_magic s.width, isWord_of_le h.nameSize, isWord_of_le h.standard.flagCount,
    isWord_of_le h.standard.numberCount, isWord_of_le h.standard.stringCount,
    isWord_of_le h.standard.tableSize⟩

theorem length_header_names (s : EntrySource) :
    (writeWords s.counts ++ (s.names ++ [0])).length = Header.size + (s.names ++ [0]).length := by
  have hwords : (writeWords s.counts).length = Header.size := length_writeWords s.counts
  rw [List.length_append, hwords]

theorem read_encodeStandard (h : s.WellFormed) (after : Bytes) :
    Header.read (s.encodeStandard ++ after) = .ok s.header := by
  have hword := fun i n (hi : s.counts[i]? = some n) =>
    wordAt_counts (isWord_of_mem_counts h) hi []
      ((s.names ++ [0]) ++ (s.sections.write s.width (Header.size + (s.names ++ [0]).length) ++ after))
  rw [encodeStandard, List.append_assoc, List.append_assoc, Header.read_eq_ok_iff]
  refine ⟨?_, hword 0 _ rfl, hword 1 _ rfl, hword 2 _ rfl, hword 3 _ rfl, hword 4 _ rfl,
    hword 5 _ rfl⟩
  rw [List.length_append, length_writeWords]
  exact Nat.le_add_right _ _

theorem readNames_encodeStandard (h : s.WellFormed) (after : Bytes) :
    s.header.readNames (s.encodeStandard ++ after) = .ok s.names := by
  have hslice : s.header.names.slice (s.encodeStandard ++ after) = s.names ++ [0] := by
    rw [encodeStandard, List.append_assoc, List.append_assoc, Span.slice]
    have hstart : s.header.names.start = (writeWords s.counts).length :=
      (length_writeWords s.counts).symm
    have hsize : s.header.names.size = (s.names ++ [0]).length := rfl
    rw [hstart, hsize, List.drop_left, List.take_left]
  rw [Header.readNames_eq_ok_iff, hslice]
  refine ⟨?_, h.names, [], rfl⟩
  have hlength := s.length_header_names
  rw [encodeStandard, List.append_assoc, List.length_append, hlength]
  exact Nat.le_add_right _ _

theorem layout_header (s : EntrySource) : s.header.layout =
    s.sections.layout s.width (writeWords s.counts ++ (s.names ++ [0])).length := by
  rw [length_header_names]
  rfl

theorem decodeValues_encodeStandard (h : s.WellFormed) (after : Bytes) :
    s.header.layout.decodeValues (s.encodeStandard ++ after) =
      .ok ⟨s.flags.map (· == 1), s.numbers.map decodeNumber, s.strings⟩ := by
  rw [layout_header, encodeStandard, ← length_header_names, List.append_assoc _ _ after]
  exact Sections.decodeValues_write h.standard _ after

theorem table_stop (s : EntrySource) :
    s.header.layout.table.stop = s.encodeStandard.length := by
  have hstart := s.sections.table_start s.width (writeWords s.counts ++ (s.names ++ [0])).length
  rw [← layout_header, ← List.length_append, length_header_names] at hstart
  exact hstart

theorem extensionStart_header (s : EntrySource) :
    s.header.extensionStart = (s.encodeStandard ++ padding s.encodeStandard.length).length := by
  rw [Header.extensionStart, table_stop, length_append_padding]

/-- The entry that a written one becomes. -/
def decoded (s : EntrySource) : Entry where
  data := s.encode
  names := s.names
  standard := ⟨s.flags.map (· == 1), s.numbers.map decodeNumber, s.strings⟩
  extension := s.extension.map ExtensionSource.decoded

theorem decodeExtension_encode (h : s.WellFormed) :
    Entry.decodeExtension s.header s.encode = .ok (s.extension.map ExtensionSource.decoded) := by
  rw [Entry.decodeExtension_eq_ok_iff, extensionStart_header, encode]
  cases hext : s.extension with
  | none =>
    change s.encodeStandard.length < _
    rw [List.length_append, ExtensionHeader.size]
    omega
  | some x =>
    obtain ⟨husage, hsections⟩ := h.extension x hext
    have hsize := x.size_le_length_encode s.width
      (s.encodeStandard ++ padding s.encodeStandard.length).length
    simp only [Option.map_some, ← length_append_padding]
    refine ⟨?_, _, ExtensionSource.read_encode husage hsections _,
      ExtensionSource.decode_encode hsections _⟩
    exact Nat.le_trans (Nat.add_le_add_left hsize _) (Nat.le_of_eq List.length_append.symm)

theorem decode_encode (h : s.WellFormed) : Entry.decode s.encode = .ok s.decoded := by
  have hencode : ∃ after, s.encode = s.encodeStandard ++ after := by
    unfold encode
    cases s.extension with
    | none => exact ⟨[], (List.append_nil _).symm⟩
    | some x => exact ⟨_, List.append_assoc _ _ _⟩
  rw [Entry.decode_eq_ok_iff]
  refine ⟨rfl, s.header, ?_, ?_, ?_, decodeExtension_encode h⟩
  all_goals obtain ⟨after, hafter⟩ := hencode
  all_goals rw [hafter]
  · exact read_encodeStandard h after
  · exact readNames_encodeStandard h after
  · exact decodeValues_encodeStandard h after

section Named

variable (s : EntrySource)

def namedFlags : List (Bytes × UInt8) := (s.extension.map ExtensionSource.flags).getD []

def namedNumbers : List (Bytes × Int) := (s.extension.map ExtensionSource.numbers).getD []

def namedStrings : List (Bytes × Slot) := (s.extension.map ExtensionSource.strings).getD []

theorem extendedFlags_decoded : s.decoded.extendedFlags =
    s.namedFlags.map fun flag => (flag.1, flag.2 == 1) := by
  unfold Entry.extendedFlags namedFlags decoded
  cases s.extension <;> rfl

theorem extendedNumbers_decoded : s.decoded.extendedNumbers =
    s.namedNumbers.map fun number => (number.1, decodeNumber number.2) := by
  unfold Entry.extendedNumbers namedNumbers decoded
  cases s.extension <;> rfl

theorem extendedStrings_decoded : s.decoded.extendedStrings = s.namedStrings := by
  unfold Entry.extendedStrings namedStrings decoded
  cases s.extension <;> rfl

end Named

/-- An entry answers what was written: every value by its position or name, the first one of those
with the same name, and the names in order. -/
structure Answers (s : EntrySource) (e : Entry) : Prop where
  data : e.data = s.encode
  names : e.names = s.names
  flagCount : e.standard.flags.length = s.flags.length
  numberCount : e.standard.numbers.length = s.numbers.length
  stringCount : e.standard.strings.length = s.strings.length
  flagAt : ∀ i, e.flagAt i = true ↔ s.flags[i]? = some 1
  numberAt : ∀ i (n : Nat), e.numberAt i = some n ↔ s.numbers[i]? = some (n : Int)
  slotAt : ∀ i, e.slotAt i = s.strings[i]?.getD .absent
  stringAt : ∀ i text, e.stringAt i = some text ↔ s.strings[i]? = some (.present text)
  extended : e.extension.isSome = s.extension.isSome
  extendedFlagCount : e.extendedFlags.length = s.namedFlags.length
  extendedNumberCount : e.extendedNumbers.length = s.namedNumbers.length
  extendedStringCount : e.extendedStrings.length = s.namedStrings.length
  extendedFlag : ∀ name, e.extendedFlag name = (s.namedFlags.lookup name).map (· == 1)
  extendedNumber : ∀ name (n : Nat),
    e.extendedNumber name = some n ↔ s.namedNumbers.lookup name = some (n : Int)
  extendedString : ∀ name text,
    e.extendedString name = some text ↔ s.namedStrings.lookup name = some (.present text)
  flagNames : ∀ name, name ∈ e.extendedFlagNames ↔ name ∈ s.namedFlags.map Prod.fst
  numberNames : ∀ name, name ∈ e.extendedNumberNames ↔ name ∈ s.namedNumbers.map Prod.fst
  stringNames : ∀ name, name ∈ e.extendedStringNames ↔ name ∈ s.namedStrings.map Prod.fst
  namesInOrder : ∀ names ∈ [e.extendedFlagNames, e.extendedNumberNames, e.extendedStringNames],
    names.Pairwise (· < ·)

theorem decodeNumber_eq_some_iff {m : Int} {n : Nat} : decodeNumber m = some n ↔ m = n := by
  unfold decodeNumber
  split_ifs with h
  · constructor
    · intro h'
      cases h'
    · intro h'
      omega
  · rw [Option.some.injEq]
    omega

theorem text?_eq_some_iff {slot : Slot} {text : Bytes} :
    slot.text? = some text ↔ slot = .present text := by
  cases slot <;> simp [Slot.text?]

theorem join_map_decodeNumber {stored : Option Int} {n : Nat} :
    (stored.map decodeNumber).join = some n ↔ stored = some (n : Int) := by
  cases stored with
  | none => simp
  | some m => simp [decodeNumber_eq_some_iff]

theorem answers_decoded (s : EntrySource) : s.Answers s.decoded where
  data := rfl
  names := rfl
  flagCount := List.length_map _
  numberCount := List.length_map _
  stringCount := rfl
  flagAt i := by
    simp only [Entry.flagAt, decoded, List.getElem?_map]
    cases s.flags[i]? <;> simp
  numberAt i n := by
    simp only [Entry.numberAt, decoded, List.getElem?_map]
    exact join_map_decodeNumber
  slotAt i := rfl
  stringAt i text := by
    simp only [Entry.stringAt, Entry.slotAt, decoded, text?_eq_some_iff]
    cases s.strings[i]? <;> simp
  extended := Option.isSome_map
  extendedFlagCount := by
    rw [extendedFlags_decoded, List.length_map]
  extendedNumberCount := by
    rw [extendedNumbers_decoded, List.length_map]
  extendedStringCount := by
    rw [extendedStrings_decoded]
  extendedFlag name := by
    rw [Entry.extendedFlag, extendedFlags_decoded]
    exact lookup_map_snd (· == 1) s.namedFlags name
  extendedNumber name n := by
    rw [Entry.extendedNumber, extendedNumbers_decoded, lookup_map_snd]
    exact join_map_decodeNumber
  extendedString name text := by
    rw [Entry.extendedString, extendedStrings_decoded, Option.bind_eq_some_iff]
    simp only [text?_eq_some_iff, exists_eq_right]
  flagNames name := by
    rw [Entry.extendedFlagNames, Bytes.mem_ordered, extendedFlags_decoded, List.map_map]
    rfl
  numberNames name := by
    rw [Entry.extendedNumberNames, Bytes.mem_ordered, extendedNumbers_decoded, List.map_map]
    rfl
  stringNames name := by
    rw [Entry.extendedStringNames, Bytes.mem_ordered, extendedStrings_decoded]
  namesInOrder := by
    simp only [List.forall_mem_cons, List.not_mem_nil, false_implies, implies_true, and_true]
    exact ⟨Bytes.pairwise_ordered _, Bytes.pairwise_ordered _, Bytes.pairwise_ordered _⟩

/-- Whatever can be written is decoded, and nothing of it is lost. -/
theorem written_entry_answers (s : EntrySource) (h : s.WellFormed) :
    ∃ e, Entry.decode s.encode = .ok e ∧ s.Answers e :=
  ⟨s.decoded, decode_encode h, s.answers_decoded⟩

/-- Wide numbers, odd places before the numbers and the extension, a name given twice, and strings
of every state in both tables. -/
def mixedSource : EntrySource where
  width := .wide
  names := Bytes.ofAscii "vt|v"
  flags := [1, 0xFE]
  numbers := [80, -1, 70000]
  strings := [.present [], .canceled, .present [0x1B, 0x5B], .absent, .present [0x80, 0x81]]
  extension := some {
    flags := [(Bytes.ofAscii "AX", 1), (Bytes.ofAscii "AX", 0), ([0xC3, 0xA9], 0)]
    numbers := [(Bytes.ofAscii "U8", -2147483648)]
    strings := [(Bytes.ofAscii "XM", .absent), (Bytes.ofAscii "XM", .present [0x41]), ([], .canceled)]
    usage := 7 }

theorem mixedSource_wellFormed : mixedSource.WellFormed where
  names := by decide
  nameSize := by decide
  standard := by
    refine ⟨?_, ?_, ?_, ?_, by decide, by decide, by decide, by decide⟩
    · simp [mixedSource, sections]
    · simp [mixedSource, sections, NumberWidth.Fits]
    · simp [mixedSource, sections]
    · simp [sections]
  extension := by
    rintro x ⟨⟩
    refine ⟨by decide, ?_, ?_, ?_, ?_, by decide, by decide, by decide, by decide⟩
    · simp [ExtensionSource.sections]
    · simp [ExtensionSource.sections, mixedSource, NumberWidth.Fits]
    · simp [ExtensionSource.sections]
    · simp only [← Bytes.Utf8.fault?_eq_none_iff]
      decide

theorem mixedSource_answers : mixedSource.WellFormed ∧ mixedSource.encode.length = 109 ∧
    ∃ e, Entry.decode mixedSource.encode = .ok e ∧ mixedSource.Answers e :=
  ⟨mixedSource_wellFormed, rfl, written_entry_answers mixedSource mixedSource_wellFormed⟩

end EntrySource
end TerminalCaps

import TerminalCaps.Proofs.Entry.Reading

/-!
The bytes of an entry that carry nothing: those behind the end of the names and behind the last
section, those that only move a section to an even place, and a count of the extension that is not
used. Entries that differ in nothing else are the same.
-/
namespace TerminalCaps

/-- The places of bytes that carry nothing. -/
inductive Format.Idle (data : Bytes) (i : Nat) : Prop
  | afterNames (hended : Terminated data 12 i) (hi : i < 12 + count data 2)
  | beforeNumbers (hstart : 12 + count data 2 + count data 4 ≤ i)
      (hstop : i < 12 + count data 2 + count data 4 + (count data 2 + count data 4) % 2)
  /-- Without an extension, whatever follows the standard sections. -/
  | afterStandard (hshort : data.length < extensionStart data + 10) (hi : (standard data).stop ≤ i)
  | beforeExtension (hstart : (standard data).stop ≤ i) (hstop : i < extensionStart data)
  /-- How much of its table the extension uses. -/
  | usage (hroom : extensionStart data + 10 ≤ data.length) (hstart : extensionStart data + 6 ≤ i)
      (hstop : i < extensionStart data + 8)
  | beforeExtendedNumbers (hroom : extensionStart data + 10 ≤ data.length)
      (hstart : extensionStart data + 10 + count data (extensionStart data) ≤ i)
      (hstop : i < extensionStart data + 10 + count data (extensionStart data) +
        count data (extensionStart data) % 2)
  | afterExtension (hroom : extensionStart data + 10 ≤ data.length) (hi : (extension data).stop ≤ i)

section Congruence

variable {data other : Bytes}

theorem lt_length_of_getElem?_ne {i : Nat} (hlength : other.length = data.length)
    (h : other[i]? ≠ data[i]?) : i < data.length := by
  by_contra hi
  have hend := Nat.not_lt.1 hi
  exact h ((List.getElem?_eq_none (hlength ▸ hend)).trans (List.getElem?_eq_none hend).symm)

theorem Span.slice_congr {s : Span}
    (h : ∀ i, s.start ≤ i → i < s.stop → other[i]? = data[i]?) : s.slice other = s.slice data := by
  apply List.ext_getElem?
  intro i
  by_cases hi : i < s.size
  · rw [getElem?_slice other hi, getElem?_slice data hi]
    exact h (s.start + i) (Nat.le_add_right _ _) (Nat.add_lt_add_left hi _)
  · simp only [slice, List.getElem?_take, if_neg hi]

theorem wordAt_congr {position : Nat}
    (h : ∀ i, position ≤ i → i < position + 2 → other[i]? = data[i]?) :
    wordAt other position = wordAt data position :=
  congrArg Bytes.signed (Span.slice_congr (s := ⟨position, 2⟩) h)

theorem Header.read_congr (hlength : other.length = data.length)
    (h : ∀ i < size, other[i]? = data[i]?) : read other = read data := by
  have hword : ∀ position ≤ 10, wordAt other position = wordAt data position := by
    intro position hposition
    apply wordAt_congr
    intro i _ hi
    exact h i (Nat.lt_of_lt_of_le hi (Nat.add_le_add_right hposition 2))
  simp only [read, countAt, hlength, hword 0 (by decide), hword 2 (by decide), hword 4 (by decide),
    hword 6 (by decide), hword 8 (by decide), hword 10 (by decide)]

theorem TextAt.length_lt {s : Span} {text : Bytes} (h : TextAt (s.slice data) 0 text) :
    text.length < s.size := by
  obtain ⟨-, rest, heq⟩ := h
  have hlength := congrArg List.length heq
  simp only [Span.slice, List.length_drop, List.length_take, List.length_append,
    List.length_cons] at hlength
  omega

theorem TextAt.getElem?_ne_zero {s : Span} {text : Bytes} (h : TextAt (s.slice data) 0 text)
    {i : Nat} (hi : i < text.length) : data[s.start + i]? ≠ some 0 := by
  have hlength := h.length_lt
  obtain ⟨hzero, rest, heq⟩ := h
  rw [List.drop_zero] at heq
  rw [← Span.getElem?_slice data (Nat.lt_trans hi hlength), heq, List.getElem?_append_left hi]
  exact fun hget => hzero (List.mem_of_getElem? hget)

/-- A text at the start of a part is there as long as its own bytes are. -/
theorem TextAt.slice_congr {s : Span} {text : Bytes} (htext : TextAt (s.slice data) 0 text)
    (h : ∀ i, s.start ≤ i → i ≤ s.start + text.length → other[i]? = data[i]?) :
    TextAt (s.slice other) 0 text := by
  have hsize : text.length + 1 ≤ s.size := htext.length_lt
  obtain ⟨hzero, rest, heq⟩ := htext
  rw [List.drop_zero] at heq
  have htake : ∀ bytes, (s.slice bytes).take (text.length + 1) =
      Span.slice ⟨s.start, text.length + 1⟩ bytes := by
    intro bytes
    simp only [Span.slice, List.take_take, Nat.min_eq_left hsize]
  have hsame : Span.slice ⟨s.start, text.length + 1⟩ other =
      Span.slice ⟨s.start, text.length + 1⟩ data :=
    Span.slice_congr fun i hstart hstop => h i hstart (Nat.le_of_lt_succ hstop)
  refine ⟨hzero, (s.slice other).drop (text.length + 1), ?_⟩
  calc (s.slice other).drop 0
      = (s.slice other).take (text.length + 1) ++ (s.slice other).drop (text.length + 1) :=
        (List.take_append_drop _ _).symm
    _ = (s.slice data).take (text.length + 1) ++ (s.slice other).drop (text.length + 1) := by
        rw [htake, htake, hsame]
    _ = text ++ 0 :: (s.slice other).drop (text.length + 1) := by
        simp [heq, List.take_length_add_append]

namespace Layout

variable {l : Layout}

/-- The place belongs to one of the sections. -/
def Uses (l : Layout) (i : Nat) : Prop :=
  l.flags.start ≤ i ∧ (i < l.flags.stop ∨ l.numbers.start ≤ i) ∧ i < l.table.stop

theorem slice_congr (h : ∀ i, l.Uses i → other[i]? = data[i]?) {s : Span} (hs : s ∈ l.sections) :
    s.slice other = s.slice data := by
  obtain ⟨hfirst, hlast⟩ := bounds_of_mem_sections hs
  have hgap : s.stop ≤ l.flags.stop ∨ l.numbers.start ≤ s.start := by
    rcases List.mem_cons.1 hs with rfl | hs
    · exact .inl (Nat.le_refl _)
    · refine .inr ?_
      simp only [List.mem_cons, List.not_mem_nil, or_false] at hs
      rcases hs with rfl | rfl | rfl | rfl <;>
        simp only [numbers, offsets, nameOffsets, table, Span.stop] <;> omega
  exact Span.slice_congr fun i hstart hstop => h i ⟨by omega, by omega, by omega⟩

theorem decodeValues_congr (hlength : other.length = data.length)
    (h : ∀ i, l.Uses i → other[i]? = data[i]?) : l.decodeValues other = l.decodeValues data := by
  have hflags : l.flags.slice other = l.flags.slice data := slice_congr h (by simp [sections])
  have hnumbers : l.numbers.slice other = l.numbers.slice data := slice_congr h (by simp [sections])
  have hoffsets : l.offsets.slice other = l.offsets.slice data := slice_congr h (by simp [sections])
  have htable : l.table.slice other = l.table.slice data := slice_congr h (by simp [sections])
  simp only [decodeValues, Span.read, hlength, hflags, hnumbers, hoffsets, htable]

end Layout

theorem Extension.decode_congr {h : ExtensionHeader} (hlength : other.length = data.length)
    (hsame : ∀ i, h.layout.Uses i → other[i]? = data[i]?) : decode h other = decode h data := by
  have hnames : h.layout.nameOffsets.slice other = h.layout.nameOffsets.slice data :=
    Layout.slice_congr hsame (by simp [Layout.sections])
  have htable : h.layout.table.slice other = h.layout.table.slice data :=
    Layout.slice_congr hsame (by simp [Layout.sections])
  simp only [decode, Layout.decodeValues_congr hlength hsame, hnames, htable]

end Congruence

namespace Format

variable {data : Bytes} {i : Nat}

theorem numbers_le_stop (data : Bytes) :
    12 + count data 2 + count data 4 + (count data 2 + count data 4) % 2 ≤ (standard data).stop := by
  simp only [standard]
  omega

theorem stop_le_extensionStart (data : Bytes) : (standard data).stop ≤ extensionStart data :=
  Nat.le_add_right _ _

theorem extendedNumbers_le_stop (data : Bytes) :
    extensionStart data + 10 + count data (extensionStart data) +
      count data (extensionStart data) % 2 ≤ (extension data).stop := by
  simp only [extension]
  omega

theorem Terminated.lt {start stop : Nat} (h : Terminated data start stop) : start < stop := by
  obtain ⟨i, hstart, hstop, -⟩ := h
  exact Nat.lt_of_le_of_lt hstart hstop

/-- The counts of the header are all used. -/
theorem not_idle_of_header (hi : i < 12) : ¬ Idle data i := by
  have hnumbers := numbers_le_stop data
  have hstop := stop_le_extensionStart data
  have hextended := extendedNumbers_le_stop data
  intro hidle
  cases hidle with
  | afterNames hended => exact absurd hended.lt (by omega)
  | _ => omega

theorem uses_standard_iff : (header data).layout.Uses i ↔ 12 + count data 2 ≤ i ∧
    (i < 12 + count data 2 + count data 4 ∨
      12 + count data 2 + count data 4 + (count data 2 + count data 4) % 2 ≤ i) ∧
    i < (standard data).stop := by
  have hstop : (header data).layout.table.stop = (standard data).stop :=
    congrArg Places.stop (places_standard data)
  rw [Layout.Uses, hstop, numbers_start_header]
  rfl

theorem uses_extension_iff : (extensionHeader data).layout.Uses i ↔ extensionStart data + 10 ≤ i ∧
    (i < extensionStart data + 10 + count data (extensionStart data) ∨
      extensionStart data + 10 + count data (extensionStart data) +
        count data (extensionStart data) % 2 ≤ i) ∧
    i < (extension data).stop := by
  have hstop : (extensionHeader data).layout.table.stop = (extension data).stop :=
    congrArg Places.stop (places_extension data)
  rw [Layout.Uses, hstop, numbers_start_extensionHeader]
  rfl

theorem not_idle_of_standard (hi : (header data).layout.Uses i) : ¬ Idle data i := by
  have hstop := stop_le_extensionStart data
  have hextended := extendedNumbers_le_stop data
  rw [uses_standard_iff] at hi
  intro hidle
  cases hidle <;> omega

theorem not_idle_of_extensionHeader (hroom : extensionStart data + 10 ≤ data.length)
    (hstart : extensionStart data ≤ i) (hi : i < extensionStart data + 10)
    (husage : i < extensionStart data + 6 ∨ extensionStart data + 8 ≤ i) : ¬ Idle data i := by
  have hnumbers := numbers_le_stop data
  have hstop := stop_le_extensionStart data
  have hextended := extendedNumbers_le_stop data
  intro hidle
  cases hidle <;> omega

theorem not_idle_of_extension (hroom : extensionStart data + 10 ≤ data.length)
    (hi : (extensionHeader data).layout.Uses i) : ¬ Idle data i := by
  have hnumbers := numbers_le_stop data
  have hstop := stop_le_extensionStart data
  rw [uses_extension_iff] at hi
  intro hidle
  cases hidle <;> omega

/-- The names go on up to their first zero byte. -/
theorem not_idle_of_names {names : Bytes} (h : TextAt ((header data).names.slice data) 0 names)
    (hi : i ≤ 12 + names.length) : ¬ Idle data i := by
  have hsize : names.length < count data 2 := h.length_lt
  have hnumbers := numbers_le_stop data
  have hstop := stop_le_extensionStart data
  have hextended := extendedNumbers_le_stop data
  intro hidle
  cases hidle with
  | afterNames hended =>
    obtain ⟨j, hstart, hj, hzero⟩ := hended
    have hinside : j - 12 < names.length := by omega
    refine h.getElem?_ne_zero hinside ?_
    change data[12 + (j - 12)]? = some 0
    rwa [Nat.add_sub_cancel' hstart]
  | _ => omega

end Format

variable {data other : Bytes}

theorem ExtensionHeader.read_congr {width : NumberWidth} {start : Nat} {h : ExtensionHeader}
    (hread : read width start data = .ok h)
    (hsame : ∀ i, start ≤ i → i < start + 10 → i < start + 6 ∨ start + 8 ≤ i →
      other[i]? = data[i]?)
    (husage : 0 ≤ wordAt other (start + 6)) : read width start other = .ok h := by
  have hword : ∀ k ≤ 8, k ≤ 4 ∨ k = 8 → wordAt other (start + k) = wordAt data (start + k) := by
    intro k hlast hk
    apply wordAt_congr
    intro i hstart hi
    exact hsame i (by omega) (by omega) (by omega)
  obtain ⟨hwidth, hstart, hflags, hnumbers, hstrings, -, htable⟩ := read_eq_ok_iff.1 hread
  refine read_eq_ok_iff.2 ⟨hwidth, hstart, ?_, ?_, ?_, husage, ?_⟩
  · exact (hword 0 (by decide) (by decide)).trans hflags
  · exact (hword 2 (by decide) (by decide)).trans hnumbers
  · exact (hword 4 (by decide) (by decide)).trans hstrings
  · exact (hword 8 (by decide) (by decide)).trans htable

/-- Entries that differ only in bytes that carry nothing give the same answers: all of the entry is
the same but the bytes themselves. The number of the extension that is not used may be any count. -/
theorem Entry.decode_ignores_idle {e : Entry} (h : decode data = .ok e)
    (hlength : other.length = data.length)
    (hsame : ∀ i, other[i]? ≠ data[i]? → Format.Idle data i)
    (husage : Format.extensionStart data + 10 ≤ data.length →
      0 ≤ Format.word other (Format.extensionStart data + 6)) :
    decode other = .ok { e with data := other } := by
  have hkept : ∀ i, ¬ Format.Idle data i → other[i]? = data[i]? := by
    intro i hi
    by_contra hother
    exact hi (hsame i hother)
  obtain ⟨-, header, hheader, hnames, hvalues, hextension⟩ := decode_eq_ok_iff.1 h
  obtain ⟨-, rfl⟩ := Format.read_header_iff.1 hheader
  obtain ⟨hinside, htext⟩ := Header.readNames_eq_ok_iff.1 hnames
  refine decode_eq_ok_iff.2 ⟨rfl, Format.header data, ?_, ?_, ?_, ?_⟩
  · rw [Header.read_congr hlength fun i hi => hkept i (Format.not_idle_of_header hi)]
    exact hheader
  · refine Header.readNames_eq_ok_iff.2 ⟨hlength ▸ hinside, htext.slice_congr ?_⟩
    exact fun i _ hi => hkept i (Format.not_idle_of_names htext hi)
  · rw [Layout.decodeValues_congr hlength fun i hi => hkept i (Format.not_idle_of_standard hi)]
    exact hvalues
  · dsimp only
    cases hx : e.extension with
    | none =>
      rw [hx, decodeExtension_eq_ok_iff] at hextension
      rw [decodeExtension_eq_ok_iff, hlength]
      exact hextension
    | some x =>
      rw [hx, decodeExtension_eq_ok_iff] at hextension
      obtain ⟨hroom, xheader, hread, hdecode⟩ := hextension
      rw [Format.extensionStart_header] at hroom hread
      change Format.extensionStart data + 10 ≤ data.length at hroom
      obtain ⟨-, rfl⟩ := (Format.read_extensionHeader_iff hroom).1 hread
      rw [decodeExtension_eq_ok_iff, Format.extensionStart_header, hlength]
      refine ⟨hroom, Format.extensionHeader data, ExtensionHeader.read_congr hread ?_ ?_, ?_⟩
      · exact fun i hstart hi hunused =>
          hkept i (Format.not_idle_of_extensionHeader hroom hstart hi hunused)
      · rw [wordAt_eq_word (by omega)]
        exact husage hroom
      · rw [Extension.decode_congr hlength fun i hi =>
          hkept i (Format.not_idle_of_extension hroom hi)]
        exact hdecode

namespace Entry

/-- A terminal with a flag, a number, a string and an extended flag, and one value in all the bytes
that carry nothing. -/
def filledEntry (fill : UInt8) : Bytes :=
  [0x1A, 0x01, 4, 0, 1, 0, 1, 0, 1, 0, 3, 0] ++ Bytes.ofAscii "t" ++ [0, fill, fill, 1, fill, 80, 0,
    0, 0] ++ Bytes.ofAscii "ab" ++ [0, fill, 1, 0, 0, 0, 0, 0, fill, 0, 2, 0, 1, fill, 0, 0] ++
    Bytes.ofAscii "X" ++ [0, fill, fill]

def filledEntryDecoded (data : Bytes) (extension : Option Extension) : Entry where
  data := data
  names := Bytes.ofAscii "t"
  standard := ⟨[true], [some 80], [.present (Bytes.ofAscii "ab")]⟩
  extension := extension

theorem decode_ignores_idle_filledEntry :
    let short := (filledEntry 0).take 35
    let other := short.take 25 ++ List.replicate 10 7
    let extension : Extension := ⟨[(Bytes.ofAscii "X", true)], [], []⟩
    decode (filledEntry 0) = .ok (filledEntryDecoded (filledEntry 0) extension) ∧
    decode (filledEntry 9) = .ok (filledEntryDecoded (filledEntry 9) extension) ∧
    decode short = .ok (filledEntryDecoded short none) ∧
    decode other = .ok (filledEntryDecoded other none) := by
  intro short other extension
  have hlong : decode (filledEntry 0) = .ok (filledEntryDecoded (filledEntry 0) extension) := by
    decide +kernel
  have hshort : decode short = .ok (filledEntryDecoded short none) := by decide +kernel
  have hlength : (filledEntry 9).length = (filledEntry 0).length := rfl
  have hlength' : other.length = short.length := rfl
  refine ⟨hlong, decode_ignores_idle hlong hlength ?_ (by decide +kernel), hshort,
    decode_ignores_idle hshort hlength' ?_ (by decide +kernel)⟩
  · have hplaces : ∀ i < (filledEntry 0).length, (filledEntry 9)[i]? ≠ (filledEntry 0)[i]? →
        i ∈ [14, 15, 17, 25, 32, 37, 42, 43] := by
      decide +kernel
    intro i hi
    have hplace := hplaces i (lt_length_of_getElem?_ne hlength hi) hi
    simp only [List.mem_cons, List.not_mem_nil, or_false] at hplace
    rcases hplace with rfl | rfl | rfl | rfl | rfl | rfl | rfl | rfl
    · exact .afterNames ⟨13, by decide +kernel⟩ (by decide +kernel)
    · exact .afterNames ⟨13, by decide +kernel⟩ (by decide +kernel)
    · exact .beforeNumbers (by decide +kernel) (by decide +kernel)
    · exact .beforeExtension (by decide +kernel) (by decide +kernel)
    · exact .usage (by decide +kernel) (by decide +kernel) (by decide +kernel)
    · exact .beforeExtendedNumbers (by decide +kernel) (by decide +kernel) (by decide +kernel)
    · exact .afterExtension (by decide +kernel) (by decide +kernel)
    · exact .afterExtension (by decide +kernel) (by decide +kernel)
  · have hplaces : ∀ i < short.length, other[i]? ≠ short[i]? → 25 ≤ i := by decide +kernel
    intro i hi
    have hstop : (Format.standard short).stop = 25 := by decide +kernel
    refine .afterStandard (by decide +kernel) ?_
    rw [hstop]
    exact hplaces i (lt_length_of_getElem?_ne hlength' hi) hi

end Entry
end TerminalCaps

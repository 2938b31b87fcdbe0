import Mathlib.Algebra.BigOperators.Ring.Finset
import Mathlib.Algebra.Order.BigOperators.Group.Finset
import Mathlib.Order.Interval.Finset.Nat
import TerminalCaps.Proofs.Entry.Reading

/-!
Where the names of an extension are read. Their offsets count from a place behind the strings, which
is found by adding up the sizes of the strings. That is the end of the last string if the strings
stand one behind the other; strings that share bytes move it up, and gaps between them move it down.
-/
namespace TerminalCaps

namespace Span

/-- How many of the parts a place belongs to. -/
def holding (spans : List Span) (place : Nat) : Nat :=
  spans.countP fun s => s.start ≤ place ∧ place < s.stop

variable {spans : List Span} {last place : Nat}

theorem sum_ite_inside {s : Span} (hstop : s.stop ≤ last) :
    ∑ place ∈ Finset.range last, (if s.start ≤ place ∧ place < s.stop then 1 else 0) = s.size := by
  have hplaces : (Finset.range last).filter (fun place => s.start ≤ place ∧ place < s.stop) =
      Finset.Ico s.start s.stop := by
    ext place
    simp only [Finset.mem_filter, Finset.mem_range, Finset.mem_Ico]
    omega
  rw [← Finset.sum_filter, hplaces, Finset.sum_const, Nat.card_Ico, stop]
  simp

/-- Every part is counted at each of its places. -/
theorem sum_size_eq (h : ∀ s ∈ spans, s.stop ≤ last) :
    (spans.map size).sum = ∑ place ∈ Finset.range last, holding spans place := by
  induction spans with
  | nil => simp [holding]
  | cons s spans ih =>
    obtain ⟨hstop, hspans⟩ := List.forall_mem_cons.1 h
    have hfirst := sum_ite_inside hstop
    simp only [holding] at ih
    simp only [holding, List.countP_cons, decide_eq_true_eq, Finset.sum_add_distrib, hfirst,
      List.map_cons, List.sum_cons, ih hspans, Nat.add_comm]

theorem sum_size_of_once (h : ∀ s ∈ spans, s.stop ≤ last)
    (hone : ∀ place < last, holding spans place = 1) : (spans.map size).sum = last := by
  calc (spans.map size).sum = ∑ place ∈ Finset.range last, holding spans place := sum_size_eq h
    _ = ∑ _place ∈ Finset.range last, 1 :=
      Finset.sum_congr rfl fun place hplace => hone place (Finset.mem_range.1 hplace)
    _ = last := by simp

/-- Parts without gaps that share a place have more bytes than the whole. -/
theorem lt_sum_size (h : ∀ s ∈ spans, s.stop ≤ last)
    (hall : ∀ place < last, 1 ≤ holding spans place) (hplace : place < last)
    (hshared : 1 < holding spans place) : last < (spans.map size).sum := by
  calc last = ∑ _place ∈ Finset.range last, 1 := by simp
    _ < ∑ place ∈ Finset.range last, holding spans place :=
      Finset.sum_lt_sum (fun place hplace => hall place (Finset.mem_range.1 hplace))
        ⟨place, Finset.mem_range.2 hplace, hshared⟩
    _ = (spans.map size).sum := (sum_size_eq h).symm

/-- Parts that share no place but leave one out have fewer bytes than the whole. -/
theorem sum_size_lt (h : ∀ s ∈ spans, s.stop ≤ last)
    (hall : ∀ place < last, holding spans place ≤ 1) (hplace : place < last)
    (hgap : holding spans place = 0) : (spans.map size).sum < last := by
  calc (spans.map size).sum = ∑ place ∈ Finset.range last, holding spans place := sum_size_eq h
    _ < ∑ _place ∈ Finset.range last, 1 :=
      Finset.sum_lt_sum (fun place hplace => hall place (Finset.mem_range.1 hplace))
        ⟨place, Finset.mem_range.2 hplace, by omega⟩
    _ = last := by simp

end Span

namespace Format

namespace Places

variable (p : Places) (data : Bytes)

/-- What a string takes up of the table with its zero byte, which is nothing if it is not there. -/
def stringSpan (i : Nat) : Span :=
  ⟨(p.offset data i).toNat, p.stringSize data (p.offset data i)⟩

def stringSpans : List Span := (List.range p.stringCount).map (p.stringSpan data)

/-- The first place of the table behind the last string. -/
def stringsStop : Nat := (p.stringSpans data).foldr (fun s last => max s.stop last) 0

def nameOffset (i : Nat) : Int := word data (p.names + 2 * i)

/-- A name is UTF-8 and stands in the table, at its offset from a place that all of them count from. -/
def NameStands (base i : Nat) (name : Bytes) : Prop :=
  Bytes.Utf8.IsText name ∧
    TextAt (data.take p.stop) (p.table + base + (p.nameOffset data i).toNat) name

theorem stringsSize_eq_sum :
    p.stringsSize data = ((p.stringSpans data).map Span.size).sum := by
  rw [stringsSize, stringSpans, List.map_map, List.sum, List.foldr_map]
  rfl

theorem stop_le_stringsStop : ∀ s ∈ p.stringSpans data, s.stop ≤ p.stringsStop data := by
  unfold stringsStop
  induction p.stringSpans data with
  | nil => simp
  | cons first spans ih =>
    refine List.forall_mem_cons.2 ⟨Nat.le_max_left _ _, ?_⟩
    exact fun s hs => Nat.le_trans (ih s hs) (Nat.le_max_right _ _)

end Places

/-- Bytes with an extension, of which everything is in order up to the places of the names. -/
structure SectionsAccepted (data : Bytes) : Prop where
  header : HeaderAccepted data
  sections : (standard data).Accepted data
  names : Terminated data 12 (12 + count data 2)
  room : extensionStart data + 10 ≤ data.length
  counts : ∀ position ∈ [0, 2, 4, 6, 8], 0 ≤ word data (extensionStart data + position)
  values : (extension data).Accepted data
  nameOffsets : ∀ i < (extension data).nameCount, 0 ≤ (extension data).nameOffset data i

end Format

/-- The names in the order of the name offsets. -/
def Extension.names (x : Extension) : List Bytes :=
  x.flags.map Prod.fst ++ (x.numbers.map Prod.fst ++ x.strings.map Prod.fst)

/-- Whether bytes are an entry hangs on the names that stand where a base says, and these names are
those of the extension. -/
structure Format.ReadsNames (data : Bytes) (base : Nat) : Prop where
  accepts : (∃ e, Entry.decode data = .ok e) ↔
    ∀ i < (extension data).nameCount, ∃ name, (extension data).NameStands data base i name
  reads : ∀ e, Entry.decode data = .ok e → ∃ x, e.extension = some x ∧
    x.names.length = (extension data).nameCount ∧
    ∀ i < (extension data).nameCount, ∃ name, x.names[i]? = some name ∧
      (extension data).NameStands data base i name

section Names

open Format

variable {data : Bytes}

theorem decodeExtension_eq_some_iff {x : Extension} :
    Entry.decodeExtension (header data) data = .ok (some x) ↔
      extensionStart data + 10 ≤ data.length ∧
      (∀ position ∈ [0, 2, 4, 6, 8], 0 ≤ word data (extensionStart data + position)) ∧
      Extension.decode (extensionHeader data) data = .ok x := by
  rw [Entry.decodeExtension_eq_ok_iff, extensionStart_header]
  refine and_congr_right fun hroom => ?_
  simp only [read_extensionHeader_iff hroom, and_assoc, exists_and_left, exists_eq_left]

/-- With all else in order, an entry has an extension, which is the only thing that can be refused. -/
theorem Format.SectionsAccepted.exists_extension (h : SectionsAccepted data) {e : Entry}
    (he : Entry.decode data = .ok e) :
    ∃ x, e.extension = some x ∧ Extension.decode (extensionHeader data) data = .ok x := by
  obtain ⟨-, first, hfirst, -, -, hextension⟩ := Entry.decode_eq_ok_iff.1 he
  obtain ⟨-, rfl⟩ := read_header_iff.1 hfirst
  cases hx : e.extension with
  | none =>
    rw [hx, Entry.decodeExtension_eq_ok_iff, extensionStart_header] at hextension
    exact absurd h.room (Nat.not_le.2 hextension)
  | some x =>
    rw [hx] at hextension
    exact ⟨x, rfl, (decodeExtension_eq_some_iff.1 hextension).2.2⟩

theorem Format.SectionsAccepted.exists_decode (h : SectionsAccepted data) {x : Extension}
    (hx : Extension.decode (extensionHeader data) data = .ok x) :
    ∃ e, Entry.decode data = .ok e := by
  obtain ⟨names, hnames⟩ := (exists_readNames_iff h.sections).2 h.names
  have hsections := h.sections
  rw [← places_standard] at hsections
  obtain ⟨values, hvalues⟩ := (Layout.exists_decodeValues_iff _ data).2 hsections
  exact ⟨⟨data, names, values, some x⟩, Entry.decode_eq_ok_iff.2
    ⟨rfl, _, read_header_iff.2 ⟨h.header, rfl⟩, hnames, hvalues,
      decodeExtension_eq_some_iff.2 ⟨h.room, h.counts, hx⟩⟩⟩

/-- The decoder counts the names from the sum of the sizes. -/
theorem Format.Places.namesAccepted_iff {p : Places} (h : ∀ i < p.nameCount, 0 ≤ p.nameOffset data i) :
    p.NamesAccepted data ↔
      ∀ i < p.nameCount, ∃ name, p.NameStands data (p.stringsSize data) i name := by
  refine forall₂_congr fun i hi => ?_
  obtain ⟨position, hposition⟩ := Int.eq_ofNat_of_zero_le (h i hi)
  simp only [Places.NameStands, hposition, Int.toNat_natCast]
  change (∃ place : Nat, p.nameOffset data i = place ∧ _) ↔ _
  simp only [hposition, Int.natCast_inj, exists_eq_left']

theorem Extension.names_zip {values : Values} {flagNames numberNames stringNames : List Bytes}
    (hflags : flagNames.length = values.flags.length)
    (hnumbers : numberNames.length = values.numbers.length)
    (hstrings : stringNames.length = values.strings.length) :
    names ⟨flagNames.zip values.flags, numberNames.zip values.numbers,
      stringNames.zip values.strings⟩ = flagNames ++ (numberNames ++ stringNames) := by
  simp only [Extension.names, List.map_fst_zip hflags.le, List.map_fst_zip hnumbers.le,
    List.map_fst_zip hstrings.le]

theorem Extension.names_stand {h : ExtensionHeader} {x : Extension} (hx : Extension.decode h data = .ok x) :
    x.names.length = h.layout.nameCount ∧ ∀ i < h.layout.nameCount, ∃ name,
      x.names[i]? = some name ∧
        h.layout.places.NameStands data (h.layout.places.stringsSize data) i name := by
  obtain ⟨values, flagNames, numberNames, stringNames, hvalues, hnames, hflags, hnumbers, hstrings,
    rfl⟩ := Extension.exists_names hx
  have hinside := (Layout.decodeValues_eq_ok_iff.1 hvalues).1
  rw [Layout.storedNameOffsets_eq hinside, Layout.totalSize_eq hvalues] at hnames
  rw [names_zip hflags hnumbers hstrings]
  constructor
  · simpa using hnames.length_eq.symm
  · intro i hi
    have hrel := Layout.rel_getElem? hnames i
    rw [List.getElem?_map, List.getElem?_range hi] at hrel
    match hname : (flagNames ++ (numberNames ++ stringNames))[i]?, hrel with
    | some name, .some hat =>
      obtain ⟨position, hposition, htext, hutf8⟩ := nameAt_slice_iff.1 hat
      refine ⟨name, rfl, hutf8, ?_⟩
      change h.layout.places.nameOffset data i = position at hposition
      rw [hposition]
      exact htext

/-- Everything is in order in an entry that was decoded. -/
theorem Format.sectionsAccepted_of_decode {e : Entry} (he : Entry.decode data = .ok e)
    (hx : e.extension.isSome) : SectionsAccepted data := by
  obtain ⟨-, first, hfirst, hnames, hvalues, hextension⟩ := Entry.decode_eq_ok_iff.1 he
  obtain ⟨hheader, rfl⟩ := read_header_iff.1 hfirst
  have hsections := (Layout.exists_decodeValues_iff _ data).1 ⟨_, hvalues⟩
  rw [places_standard] at hsections
  obtain ⟨x, hx⟩ := Option.isSome_iff_exists.1 hx
  rw [hx, decodeExtension_eq_some_iff] at hextension
  obtain ⟨hroom, hcounts, hdecode⟩ := hextension
  have hboth := (exists_decodeExtension_iff _ data).1 ⟨x, hdecode⟩
  rw [places_extension] at hboth
  refine ⟨hheader, hsections, (exists_readNames_iff hsections).1 ⟨_, hnames⟩, hroom, hcounts,
    hboth.1, ?_⟩
  intro i hi
  obtain ⟨position, hposition, -⟩ := hboth.2 i hi
  change (extension data).nameOffset data i = position at hposition
  omega

/-- The names stand at their offsets from the sum of the sizes. -/
theorem Format.readsNames_stringsSize (h : SectionsAccepted data) :
    ReadsNames data ((extension data).stringsSize data) := by
  have hplaces := places_extension data
  constructor
  · calc (∃ e, Entry.decode data = .ok e)
        ↔ ∃ x, Extension.decode (extensionHeader data) data = .ok x :=
          ⟨fun ⟨_, he⟩ => (h.exists_extension he).imp fun _ => And.right,
            fun ⟨_, hx⟩ => h.exists_decode hx⟩
      _ ↔ (extension data).Accepted data ∧ (extension data).NamesAccepted data := by
          rw [exists_decodeExtension_iff, hplaces]
      _ ↔ (extension data).NamesAccepted data := and_iff_right h.values
      _ ↔ _ := Places.namesAccepted_iff h.nameOffsets
  · intro e he
    obtain ⟨x, hx, hdecode⟩ := h.exists_extension he
    have hnames := Extension.names_stand hdecode
    rw [hplaces] at hnames
    have hcount : (extensionHeader data).layout.nameCount = (extension data).nameCount :=
      congrArg Format.Places.nameCount hplaces
    rw [hcount] at hnames
    exact ⟨x, hx, hnames⟩

/-- The names count from the sum of the sizes of the strings, whether or not these share bytes. That
is behind the last string if every byte before belongs to exactly one of them. -/
theorem Format.names_behind_sizes (h : SectionsAccepted data) :
    let spans := (extension data).stringSpans data
    let size := (extension data).stringsSize data
    let last := (extension data).stringsStop data
    ReadsNames data size ∧ size = ∑ place ∈ Finset.range last, Span.holding spans place ∧
      ((∀ place < last, Span.holding spans place = 1) → size = last ∧ ReadsNames data last) ∧
      ((∀ place < last, 1 ≤ Span.holding spans place) →
        (∃ place < last, 1 < Span.holding spans place) → last < size) ∧
      ((∀ place < last, Span.holding spans place ≤ 1) →
        (∃ place < last, Span.holding spans place = 0) → size < last) := by
  intro spans size last
  have hsize : size = (spans.map Span.size).sum :=
    (extension data).stringsSize_eq_sum data
  have hstop : ∀ s ∈ spans, s.stop ≤ last := (extension data).stop_le_stringsStop data
  have hreads : ReadsNames data size := readsNames_stringsSize h
  rw [← Span.sum_size_eq hstop, ← hsize]
  refine ⟨hreads, rfl, ?_, ?_, ?_⟩
  · intro hone
    have heq : size = last := hsize.trans (Span.sum_size_of_once hstop hone)
    exact ⟨heq, heq ▸ hreads⟩
  · intro hall ⟨place, hplace, hshared⟩
    exact hsize ▸ Span.lt_sum_size hstop hall hplace hshared
  · intro hall ⟨place, hplace, hgap⟩
    exact hsize ▸ Span.sum_size_lt hstop hall hplace hgap

end Names

namespace Format

/-- An entry whose extension has two strings at given offsets, and two names at 0 and 3. -/
def twoStrings (first second : UInt8) (table : Bytes) : Bytes :=
  [0x1A, 0x01, 2, 0, 0, 0, 0, 0, 0, 0, 0, 0] ++ Bytes.ofAscii "t" ++ [0] ++
    [0, 0, 0, 0, 2, 0, 4, 0, UInt8.ofNat table.length, 0] ++
    [first, 0, second, 0] ++ [0, 0, 3, 0] ++ table

def twoStringsDecoded (data : Bytes) (strings : List (Bytes × Slot)) : Entry where
  data := data
  names := Bytes.ofAscii "t"
  standard := ⟨[], [], []⟩
  extension := some ⟨[], [], strings⟩

def adjacentStrings : Bytes := twoStrings 0 2 (Bytes.ofAscii "A\x00B\x00k1\x00k2\x00")

/-- Both strings are the same bytes. -/
def sharedStrings : Bytes := twoStrings 0 0 (Bytes.ofAscii "A\x00k1\x00k2\x00")

/-- A byte before the second string belongs to none of them. -/
def gappedStrings : Bytes := twoStrings 0 3 (Bytes.ofAscii "A\x00xB\x00k1\x00k2\x00")

theorem decode_adjacentStrings : Entry.decode adjacentStrings =
    .ok (twoStringsDecoded adjacentStrings [(Bytes.ofAscii "k1", .present (Bytes.ofAscii "A")),
      (Bytes.ofAscii "k2", .present (Bytes.ofAscii "B"))]) := by
  decide +kernel

theorem decode_sharedStrings : Entry.decode sharedStrings =
    .ok (twoStringsDecoded sharedStrings
      [([], .present (Bytes.ofAscii "A")), ([], .present (Bytes.ofAscii "A"))]) := by
  decide +kernel

theorem decode_gappedStrings : Entry.decode gappedStrings =
    .ok (twoStringsDecoded gappedStrings
      [([], .present (Bytes.ofAscii "A")), ([], .present (Bytes.ofAscii "B"))]) := by
  decide +kernel

theorem names_behind_sizes_twoStrings :
    let size data := (extension data).stringsSize data
    let last data := (extension data).stringsStop data
    (SectionsAccepted adjacentStrings ∧ ReadsNames adjacentStrings (last adjacentStrings)) ∧
    (SectionsAccepted sharedStrings ∧ last sharedStrings < size sharedStrings) ∧
    SectionsAccepted gappedStrings ∧ size gappedStrings < last gappedStrings := by
  have hadjacent := sectionsAccepted_of_decode decode_adjacentStrings rfl
  have hshared := sectionsAccepted_of_decode decode_sharedStrings rfl
  have hgapped := sectionsAccepted_of_decode decode_gappedStrings rfl
  refine ⟨⟨hadjacent, ?_⟩, ⟨hshared, ?_⟩, hgapped, ?_⟩
  · exact ((names_behind_sizes hadjacent).2.2.1 (by decide +kernel)).2
  · exact (names_behind_sizes hshared).2.2.2.1 (by decide +kernel) ⟨0, by decide +kernel⟩
  · exact (names_behind_sizes hgapped).2.2.2.2 (by decide +kernel) ⟨2, by decide +kernel⟩

/-- Behind the one string of both stand the names, but the decoder reads others. -/
theorem names_missed_sharedStrings :
    let last := (extension sharedStrings).stringsStop sharedStrings
    SectionsAccepted sharedStrings ∧
      (extension sharedStrings).NameStands sharedStrings last 0 (Bytes.ofAscii "k1") ∧
      (extension sharedStrings).NameStands sharedStrings last 1 (Bytes.ofAscii "k2") ∧
      ¬ ReadsNames sharedStrings last := by
  refine ⟨sectionsAccepted_of_decode decode_sharedStrings rfl, ?_, ?_, ?_⟩
  · exact ⟨Bytes.Utf8.fault?_eq_none_iff.1 (by decide), by decide,
      Bytes.ofAscii "k2" ++ [0], by decide +kernel⟩
  · exact ⟨Bytes.Utf8.fault?_eq_none_iff.1 (by decide), by decide, [], by decide +kernel⟩
  · intro h
    obtain ⟨x, hx, -, hnames⟩ := h.reads _ decode_sharedStrings
    obtain rfl := Option.some.inj hx
    obtain ⟨name, hname, -, htext⟩ := hnames 0 (by decide +kernel)
    obtain rfl : [] = name := Option.some.inj hname
    obtain ⟨-, rest, hrest⟩ := htext
    have hfirst : some 0 = some (0x6B : UInt8) :=
      (congrArg List.head? hrest).symm.trans (by decide +kernel)
    exact absurd hfirst (by decide)

end Format
end TerminalCaps

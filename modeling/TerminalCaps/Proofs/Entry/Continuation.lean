import TerminalCaps.Proofs.Entry.Acceptance

/-!
Entries with more bytes behind them. What is decided about some bytes is decided in the same way when
more follow, unless the decision was that bytes are missing.
-/
namespace TerminalCaps

/-- The decision on fewer bytes is the one on all of them, unless it is that bytes are missing. -/
def Foretells {α : Type} (fewer all : Decoded α) : Prop := fewer = .error .truncated ∨ fewer = all

namespace Foretells

variable {α β : Type} {x y : Decoded α} {f g : α → Decoded β}

theorem bind (h : Foretells x y) (hnext : ∀ a, x = .ok a → Foretells (f a) (g a)) :
    Foretells (x >>= f) (y >>= g) := by
  rcases h with rfl | rfl
  · exact .inl rfl
  · cases x with
    | error e => exact .inr rfl
    | ok a => exact hnext a rfl

theorem eq_error {e : DecodeError} (h : Foretells x y) (hx : x = .error e) (he : e ≠ .truncated) :
    y = .error e := by
  subst hx
  rcases h with h | rfl
  · cases h
    exact absurd rfl he
  · rfl

theorem eq_ok {a : α} (h : Foretells x y) (hx : x = .ok a) : y = .ok a := by
  subst hx
  rcases h with h | rfl
  · cases h
  · rfl

/-- What succeeds on all bytes fails for want of bytes where it cannot succeed. -/
theorem eq_ite {a : α} {short : Prop} [Decidable short] (h : Foretells x y) (hy : y = .ok a)
    (hshort : x = .ok a → ¬ short) (henough : ¬ short → x = y) :
    x = if short then .error .truncated else .ok a := by
  by_cases hs : short
  · rw [if_pos hs]
    rcases h with h | h
    · exact h
    · exact absurd hs (hshort (h.trans hy))
  · rw [if_neg hs, henough hs, hy]

end Foretells

section Parts

variable {data : Bytes} (more : Bytes)

theorem le_length_append {n : Nat} (h : n ≤ data.length) : n ≤ (data ++ more).length :=
  Nat.le_trans h (List.sublist_append_left data more).length_le

theorem Span.read_append {s : Span} (h : s.stop ≤ data.length) :
    s.read (data ++ more) = s.read data := by
  rw [read, read, if_pos h, if_pos (le_length_append more h), slice_append h]

theorem Span.foretells_read (s : Span) (data more : Bytes) :
    Foretells (s.read data) (s.read (data ++ more)) := by
  by_cases h : s.stop ≤ data.length
  · exact .inr (read_append more h).symm
  · exact .inl (if_neg h)

theorem wordAt_append {position : Nat} (h : position + 2 ≤ data.length) :
    wordAt (data ++ more) position = wordAt data position :=
  congrArg Bytes.signed (Span.slice_append (s := ⟨position, 2⟩) h more)

theorem countAt_append {position : Nat} (h : position + 2 ≤ data.length) :
    countAt (data ++ more) position = countAt data position := by
  rw [countAt, wordAt_append more h, countAt]

namespace Header

theorem read_append (h : size ≤ data.length) : read (data ++ more) = read data := by
  have hmore := Nat.not_lt.2 (le_length_append more h)
  have hdata := Nat.not_lt.2 h
  rw [size] at h
  simp (disch := omega) only [read, if_neg hmore, if_neg hdata, wordAt_append, countAt_append]

theorem foretells_read (data more : Bytes) : Foretells (read data) (read (data ++ more)) := by
  by_cases h : size ≤ data.length
  · exact .inr (read_append more h).symm
  · refine .inl ?_
    rw [read, if_pos (Nat.not_le.1 h)]
    rfl

theorem readNames_append {h : Header} (hnames : h.names.stop ≤ data.length) :
    h.readNames (data ++ more) = h.readNames data := by
  rw [readNames, Span.read_append more hnames, readNames]

theorem foretells_readNames (h : Header) (data more : Bytes) :
    Foretells (h.readNames data) (h.readNames (data ++ more)) :=
  (h.names.foretells_read data more).bind fun _ _ => .inr rfl

end Header

namespace Layout

variable {l : Layout}

theorem sections_append (h : l.table.stop ≤ data.length) :
    l.numbers.slice (data ++ more) = l.numbers.slice data ∧
      l.offsets.slice (data ++ more) = l.offsets.slice data ∧
      l.nameOffsets.slice (data ++ more) = l.nameOffsets.slice data ∧
      l.table.slice (data ++ more) = l.table.slice data := by
  have hnames := Nat.le_trans l.nameOffsets_stop_le h
  have hoffsets := Nat.le_trans l.offsets_stop_le hnames
  have hnumbers : l.numbers.stop ≤ data.length := Nat.le_trans (Nat.le_add_right _ _) hoffsets
  exact ⟨Span.slice_append hnumbers more, Span.slice_append hoffsets more,
    Span.slice_append hnames more, Span.slice_append h more⟩

theorem decodeValues_append (h : l.table.stop ≤ data.length) :
    l.decodeValues (data ++ more) = l.decodeValues data := by
  have hmore := Nat.not_lt.2 (le_length_append more h)
  obtain ⟨hnumbers, hoffsets, -, htable⟩ := sections_append more h
  simp only [decodeValues, if_neg hmore, if_neg (Nat.not_lt.2 h), hnumbers, hoffsets, htable,
    Span.read_append more (Nat.le_trans l.flags_stop_le h)]

theorem foretells_decodeValues (l : Layout) (data more : Bytes) :
    Foretells (l.decodeValues data) (l.decodeValues (data ++ more)) := by
  by_cases h : l.table.stop ≤ data.length
  · exact .inr (decodeValues_append more h).symm
  · -- The flags may be in order or not before the bytes end.
    refine (l.flags.foretells_read data more).bind fun bytes _ => ?_
    refine Foretells.bind (.inr rfl) fun flags _ => .inl ?_
    rw [if_pos (Nat.not_le.1 h)]
    rfl

end Layout

theorem ExtensionHeader.read_append {width : NumberWidth} {start : Nat}
    (h : start + size ≤ data.length) :
    read width start (data ++ more) = read width start data := by
  rw [size] at h
  simp (disch := omega) only [read, countAt_append]

namespace Extension

theorem decode_append {h : ExtensionHeader} (hstop : h.layout.table.stop ≤ data.length) :
    decode h (data ++ more) = decode h data := by
  obtain ⟨-, -, hnames, htable⟩ := Layout.sections_append more hstop
  rw [decode, decode, Layout.decodeValues_append more hstop, hnames, htable]

theorem foretells_decode (h : ExtensionHeader) (data more : Bytes) :
    Foretells (decode h data) (decode h (data ++ more)) := by
  refine (h.layout.foretells_decodeValues data more).bind fun values hvalues => ?_
  have hstop := (Layout.decodeValues_eq_ok_iff.1 hvalues).1
  obtain ⟨-, -, hnames, htable⟩ := Layout.sections_append more hstop
  rw [hnames, htable]
  exact .inr rfl

end Extension

namespace Entry

/-- The header, the names and the standard values of an entry. -/
def decodeStandard (data : Bytes) : Decoded (Header × Bytes × Values) := do
  let header ← Header.read data
  let names ← header.readNames data
  let values ← header.layout.decodeValues data
  return (header, names, values)

theorem decode_eq (data : Bytes) : decode data = (do
    let (header, names, standard) ← decodeStandard data
    let extension ← decodeExtension header data
    return { data, names, standard, extension }) := by
  rw [decode, decodeStandard]
  simp only [bind_assoc, pure_bind]

theorem foretells_decodeStandard (data more : Bytes) :
    Foretells (decodeStandard data) (decodeStandard (data ++ more)) := by
  refine (Header.foretells_read data more).bind fun header _ => ?_
  refine (header.foretells_readNames data more).bind fun names _ => ?_
  refine (header.layout.foretells_decodeValues data more).bind fun values _ => ?_
  exact .inr rfl

theorem decodeStandard_eq_ok_iff {header : Header} {names : Bytes} {values : Values} :
    decodeStandard data = .ok (header, names, values) ↔ Header.read data = .ok header ∧
      header.readNames data = .ok names ∧ header.layout.decodeValues data = .ok values := by
  unfold decodeStandard
  simp only [Sequencing.bind_eq_ok_iff, Sequencing.pure_eq_ok_iff, Prod.mk.injEq]
  constructor
  · rintro ⟨_, hheader, _, hnames, _, hvalues, rfl, rfl, rfl⟩
    exact ⟨hheader, hnames, hvalues⟩
  · rintro ⟨hheader, hnames, hvalues⟩
    exact ⟨header, hheader, names, hnames, values, hvalues, rfl, rfl, rfl⟩

theorem decodeExtension_of_short {h : Header}
    (hsize : data.length < h.extensionStart + ExtensionHeader.size) :
    decodeExtension h data = .ok none := by
  simp only [decodeExtension, if_pos hsize]
  rfl

/-- Once the header of an extension is there, it is decided that there is one. -/
theorem foretells_decodeExtension {h : Header}
    (hsize : h.extensionStart + ExtensionHeader.size ≤ data.length) :
    Foretells (decodeExtension h data) (decodeExtension h (data ++ more)) := by
  have hmore := Nat.not_lt.2 (le_length_append more hsize)
  simp only [decodeExtension, if_neg hmore, if_neg (Nat.not_lt.2 hsize)]
  rw [ExtensionHeader.read_append more hsize]
  refine Foretells.bind (.inr rfl) fun header _ => ?_
  exact (Extension.foretells_decode header data more).bind fun extension _ => .inr rfl

theorem foretells_of_ne_none {h : Header} (hsome : decodeExtension h data ≠ .ok none) :
    Foretells (decodeExtension h data) (decodeExtension h (data ++ more)) := by
  apply foretells_decodeExtension more
  apply Nat.not_lt.1
  intro hsize
  exact hsome (decodeExtension_of_short hsize)

end Entry
end Parts

namespace Entry

variable {data more : Bytes} {header : Header} {names : Bytes} {standard : Values}
  {e e' : Entry}

/-- The parts of a decoded entry, one after another. -/
theorem exists_decodeStandard (h : decode data = .ok e) : ∃ header,
    decodeStandard data = .ok (header, e.names, e.standard) ∧
      decodeExtension header data = .ok e.extension := by
  obtain ⟨-, header, hheader, hnames, hvalues, hextension⟩ := decode_eq_ok_iff.1 h
  exact ⟨header, decodeStandard_eq_ok_iff.2 ⟨hheader, hnames, hvalues⟩, hextension⟩

theorem decode_of_standard (h : decodeStandard data = .ok (header, names, standard)) :
    decode data = (decodeExtension header data).map
      fun extension => { data, names, standard, extension } := by
  rw [decode_eq, h]
  change decodeExtension header data >>= _ = _
  cases decodeExtension header data <;> rfl

theorem decode_error_append {error : DecodeError} (h : decode data = .error error)
    (hbytes : error ≠ .truncated) : decode (data ++ more) = .error error := by
  cases hstandard : decodeStandard data with
  | error e =>
    rw [decode_eq, hstandard] at h
    cases h
    rw [decode_eq, (foretells_decodeStandard data more).eq_error hstandard hbytes]
    rfl
  | ok parts =>
    obtain ⟨header, names, standard⟩ := parts
    have hall := (foretells_decodeStandard data more).eq_ok hstandard
    rw [decode_of_standard hstandard] at h
    rw [decode_of_standard hall]
    cases hextension : decodeExtension header data with
    | ok extension =>
      rw [hextension] at h
      cases h
    | error e =>
      rw [hextension] at h
      cases h
      have hsome : decodeExtension header data ≠ .ok none := by
        rw [hextension]
        exact fun h => nomatch h
      rw [(foretells_of_ne_none more hsome).eq_error hextension hbytes]
      rfl

/-- An entry with an extension is the same with more bytes behind it. -/
theorem decode_extended_append (h : decode data = .ok e) (hextended : e.extension.isSome) :
    decode (data ++ more) = .ok { e with data := data ++ more } := by
  obtain ⟨header, hstandard, hextension⟩ := exists_decodeStandard h
  have hsome : decodeExtension header data ≠ .ok none := by
    rw [hextension]
    intro hnone
    rw [Except.ok.inj hnone] at hextended
    cases hextended
  rw [decode_of_standard ((foretells_decodeStandard data more).eq_ok hstandard),
    (foretells_of_ne_none more hsome).eq_ok hextension]
  rfl

/-- The standard values of an entry are the same with more bytes behind it. -/
theorem standard_append (h : decode data = .ok e) (h' : decode (data ++ more) = .ok e') :
    e'.names = e.names ∧ e'.standard = e.standard := by
  obtain ⟨header, hstandard, -⟩ := exists_decodeStandard h
  obtain ⟨header', hstandard', -⟩ := exists_decodeStandard h'
  rw [(foretells_decodeStandard data more).eq_ok hstandard] at hstandard'
  simp only [Except.ok.injEq, Prod.mk.injEq] at hstandard'
  exact ⟨hstandard'.2.1.symm, hstandard'.2.2.symm⟩

/-- Bytes that follow never change what has been decided: neither an error, unless it says that bytes
are missing, nor an entry with an extension, nor the standard part of any entry. -/
theorem decisions_stand (data more : Bytes) :
    (∀ error, decode data = .error error → error ≠ .truncated →
      decode (data ++ more) = .error error) ∧
    (∀ e, decode data = .ok e → e.extension.isSome →
      decode (data ++ more) = .ok { e with data := data ++ more }) ∧
    (∀ e e', decode data = .ok e → e.extension = none → decode (data ++ more) = .ok e' →
      e'.names = e.names ∧ e'.standard = e.standard) := by
  refine ⟨?_, ?_, ?_⟩
  · intro error h hbytes
    exact decode_error_append h hbytes
  · intro e h hextended
    exact decode_extended_append h hextended
  · intro e e' h _ h'
    exact standard_append h h'

/-- A terminal with one flag, number, string and extended flag; its table of strings ends at an odd
place. -/
def smallEntry : Bytes :=
  [0x1A, 0x01, 2, 0, 1, 0, 1, 0, 1, 0, 3, 0] ++ Bytes.ofAscii "t" ++ [0, 1, 0, 80, 0, 0, 0] ++
    Bytes.ofAscii "ab" ++ [0, 0, 1, 0, 0, 0, 0, 0, 1, 0, 2, 0, 1, 0, 0, 0] ++ Bytes.ofAscii "X" ++ [0]

def smallEntryDecoded : Entry where
  data := smallEntry
  names := Bytes.ofAscii "t"
  standard := ⟨[true], [some 80], [.present (Bytes.ofAscii "ab")]⟩
  extension := some ⟨[(Bytes.ofAscii "X", true)], [], []⟩

theorem decode_smallEntry : decode smallEntry = .ok smallEntryDecoded := by
  decide +kernel

/-- A terminal whose names do not end. -/
def unnamed : Bytes := [0x1A, 0x01, 1, 0, 0, 0, 0, 0, 0, 0, 0, 0, 0x74]

theorem decisions_stand_smallEntry : decode (unnamed ++ [0]) = .error .unterminatedString ∧
    decode (smallEntry ++ [1, 2]) = .ok { smallEntryDecoded with data := smallEntry ++ [1, 2] } ∧
    ∃ e, decode (smallEntry.take 23) = .ok e ∧ e.extension = none ∧
      smallEntryDecoded.names = e.names ∧ smallEntryDecoded.standard = e.standard := by
  have hunnamed : decode unnamed = .error .unterminatedString := by decide +kernel
  have hcut : decode (smallEntry.take 23) =
      .ok { smallEntryDecoded with data := smallEntry.take 23, extension := none } := by
    decide +kernel
  refine ⟨?_, ?_, _, hcut, rfl, ?_⟩
  · exact (decisions_stand unnamed [0]).1 _ hunnamed (by decide)
  · exact (decisions_stand smallEntry [1, 2]).2.1 _ decode_smallEntry rfl
  · exact (decisions_stand (smallEntry.take 23) (smallEntry.drop 23)).2.2 _ _ hcut rfl
      decode_smallEntry

end Entry
end TerminalCaps

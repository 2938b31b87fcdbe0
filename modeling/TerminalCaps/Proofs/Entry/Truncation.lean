import TerminalCaps.Proofs.Entry.Continuation

/-!
Entries that are cut off. The places where a cut matters are those of the declared format: the end of
the standard sections, the header of the extension, and the end of its last section.
-/
namespace TerminalCaps
namespace Entry

variable {data more : Bytes} {header : Header} {names : Bytes} {standard : Values} {e : Entry}

theorem decodeStandard_short (hall : decodeStandard (data ++ more) = .ok (header, names, standard)) :
    decodeStandard data = if data.length < header.layout.table.stop then .error .truncated
      else .ok (header, names, standard) := by
  refine (foretells_decodeStandard data more).eq_ite hall ?_ ?_
  · intro h
    obtain ⟨-, -, hvalues⟩ := decodeStandard_eq_ok_iff.1 h
    exact Nat.not_lt.2 (Layout.decodeValues_eq_ok_iff.1 hvalues).1
  · intro hshort
    have hstop := Nat.not_lt.1 hshort
    have hflags := Nat.le_trans header.layout.flags_stop_le hstop
    have hnames : header.names.stop ≤ data.length := Nat.le_trans (Nat.le_add_right _ _) hflags
    have hsize : Header.size ≤ data.length := Nat.le_trans (Nat.le_add_right _ _) hnames
    obtain ⟨hheader, hread, hvalues⟩ := decodeStandard_eq_ok_iff.1 hall
    rw [hall, decodeStandard_eq_ok_iff, ← Header.read_append more hsize,
      ← Header.readNames_append more hnames, ← Layout.decodeValues_append more hstop]
    exact ⟨hheader, hread, hvalues⟩

theorem decodeExtension_short {extension : Option Extension} {h : ExtensionHeader}
    (hall : decodeExtension header (data ++ more) = .ok extension)
    (hsize : header.extensionStart + ExtensionHeader.size ≤ data.length)
    (hread : ExtensionHeader.read header.width header.extensionStart (data ++ more) = .ok h) :
    decodeExtension header data = if data.length < h.layout.table.stop then .error .truncated
      else .ok extension := by
  cases extension with
  | none =>
    exact absurd (decodeExtension_eq_ok_iff.1 hall) (Nat.not_lt.2 (le_length_append more hsize))
  | some x =>
    obtain ⟨-, h', hread', hdecode⟩ := decodeExtension_eq_ok_iff.1 hall
    cases hread.symm.trans hread'
    rw [ExtensionHeader.read_append more hsize] at hread
    refine (foretells_decodeExtension more hsize).eq_ite hall ?_ ?_
    · intro hshort
      obtain ⟨-, h', hread', hdecode'⟩ := decodeExtension_eq_ok_iff.1 hshort
      cases hread.symm.trans hread'
      obtain ⟨values, -, hvalues, -⟩ := Extension.decode_eq_ok_iff.1 hdecode'
      exact Nat.not_lt.2 (Layout.decodeValues_eq_ok_iff.1 hvalues).1
    · intro hshort
      rw [hall, decodeExtension_eq_ok_iff]
      rw [Extension.decode_append more (Nat.not_lt.1 hshort)] at hdecode
      exact ⟨hsize, h, hread, hdecode⟩

theorem read_extensionHeader {extension : Option Extension}
    (h : decodeExtension (Format.header data) data = .ok extension)
    (hsize : (Format.header data).extensionStart + ExtensionHeader.size ≤ data.length) :
    ExtensionHeader.read (Format.header data).width (Format.header data).extensionStart data =
      .ok (Format.extensionHeader data) := by
  cases extension with
  | none => exact absurd (decodeExtension_eq_ok_iff.1 h) (Nat.not_lt.2 hsize)
  | some x =>
    obtain ⟨-, header, hread, -⟩ := decodeExtension_eq_ok_iff.1 h
    rw [Format.extensionStart_header] at hsize hread ⊢
    obtain ⟨-, rfl⟩ := (Format.read_extensionHeader_iff hsize).1 hread
    exact hread

theorem decode_short (hall : decode (data ++ more) = .ok e) : decode data =
    if data.length < (Format.standard (data ++ more)).stop then .error .truncated
    else if data.length < Format.extensionStart (data ++ more) + 10 then
      .ok { e with data, extension := none }
    else if data.length < (Format.extension (data ++ more)).stop then .error .truncated
    else .ok { e with data } := by
  obtain ⟨header, hstandard, hextension⟩ := exists_decodeStandard hall
  obtain ⟨hheader, -, -⟩ := decodeStandard_eq_ok_iff.1 hstandard
  obtain ⟨-, rfl⟩ := Format.read_header_iff.1 hheader
  rw [← Format.places_standard, ← Format.extensionStart_header, ← Format.places_extension]
  by_cases hshort : data.length < (Format.header (data ++ more)).layout.places.stop
  · have hparts := (decodeStandard_short hstandard).trans (if_pos hshort)
    rw [if_pos hshort, decode_eq, hparts]
    rfl
  · have hparts := (decodeStandard_short hstandard).trans (if_neg hshort)
    rw [if_neg hshort, decode_of_standard hparts]
    by_cases hnone : data.length < (Format.header (data ++ more)).extensionStart + 10
    · rw [if_pos hnone, decodeExtension_of_short hnone]
      rfl
    · have hsize := Nat.not_lt.1 hnone
      have hmore := le_length_append more hsize
      rw [if_neg hnone, decodeExtension_short hextension hsize (read_extensionHeader hextension hmore)]
      change Except.map _ (if data.length < (Format.extensionHeader (data ++ more)).layout.places.stop
        then _ else _) = _
      split_ifs <;> rfl

/-- An entry that is cut off is reported as such, or it is the same entry, without the extension if
too little of that is left. -/
theorem decode_take (h : decode data = .ok e) {n : Nat} (hn : n ≤ data.length) :
    decode (data.take n) =
      if n < (Format.standard data).stop then .error .truncated
      else if n < Format.extensionStart data + 10 then
        .ok { e with data := data.take n, extension := none }
      else if n < (Format.extension data).stop then .error .truncated
      else .ok { e with data := data.take n } := by
  have hcut := List.take_append_drop n data
  have hlength : (data.take n).length = n := by
    rw [List.length_take]
    omega
  have hshort := @decode_short (data.take n) (data.drop n) e (by rwa [hcut])
  rwa [hcut, hlength] at hshort

theorem decode_take_smallEntry : decode smallEntry = .ok smallEntryDecoded ∧
    decode (smallEntry.take 40) = .ok { smallEntryDecoded with data := smallEntry.take 40 } ∧
    decode (smallEntry.take 39) = .error .truncated ∧
    decode (smallEntry.take 33) =
      .ok { smallEntryDecoded with data := smallEntry.take 33, extension := none } ∧
    decode (smallEntry.take 22) = .error .truncated :=
  ⟨decode_smallEntry, decode_take decode_smallEntry (by decide),
    decode_take decode_smallEntry (by decide), decode_take decode_smallEntry (by decide),
    decode_take decode_smallEntry (by decide)⟩

end Entry
end TerminalCaps

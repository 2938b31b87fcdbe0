import Mathlib.Data.List.Forall2
import TerminalCaps.Entry.Decoder
import TerminalCaps.Proofs.Bytes.Utf8
import TerminalCaps.Proofs.Sequencing

/-!
What each part of the decoder accepts, and the value it gives then. Every statement is an
equivalence, so that it serves to decode what was written and to describe what can be decoded.
-/
namespace TerminalCaps
open Sequencing

/-- A text stands at a position of a table, followed by a zero byte inside of it. -/
def TextAt (table : Bytes) (position : Nat) (text : Bytes) : Prop :=
  0 ∉ text ∧ ∃ rest, table.drop position = text ++ 0 :: rest

theorem Bytes.zeroTerminated?_eq_some_iff {bytes text : Bytes} :
    zeroTerminated? bytes = some text ↔ TextAt bytes 0 text := by
  constructor
  · intro h
    have hmem : 0 ∈ bytes := by
      by_contra hmem
      rw [zeroTerminated?_eq_none_iff.2 hmem] at h
      cases h
    obtain ⟨first, rest, rfl, hfirst⟩ := List.eq_append_cons_of_mem hmem
    rw [zeroTerminated?_append hfirst, Option.some.injEq] at h
    subst h
    exact ⟨hfirst, rest, rfl⟩
  · rintro ⟨htext, rest, heq⟩
    rw [List.drop_zero] at heq
    rw [heq, zeroTerminated?_append htext]

theorem Span.read_eq_ok_iff {s : Span} {data bytes : Bytes} :
    s.read data = .ok bytes ↔ s.stop ≤ data.length ∧ s.slice data = bytes := by
  unfold Span.read
  by_cases h : s.stop ≤ data.length
  · rw [if_pos h, Except.ok.injEq]
    exact ⟨fun h' => ⟨h, h'⟩, And.right⟩
  · rw [if_neg h]
    constructor
    · intro h'
      cases h'
    · exact fun h' => absurd h'.1 h

theorem countAt_eq_ok_iff {data : Bytes} {position n : Nat} :
    countAt data position = .ok n ↔ wordAt data position = n := by
  unfold countAt
  by_cases h : wordAt data position < 0
  · simp only [if_pos h]
    constructor
    · intro h'
      cases h'
    · intro h'
      omega
  · simp only [if_neg h, Except.ok.injEq]
    omega

/-- The bytes that stand for a flag: not set, set, or canceled. -/
def IsFlag (b : UInt8) : Prop := b = 0 ∨ b = 1 ∨ b = 0xFE

theorem decodeFlag_eq_ok_iff {b : UInt8} {value : Bool} :
    decodeFlag b = .ok value ↔ IsFlag b ∧ (b == 1) = value := by
  unfold decodeFlag IsFlag
  by_cases h1 : b = 1
  · simp [h1]
  · rw [if_neg h1]
    by_cases h0 : b = 0 ∨ b = 0xFE
    · rw [if_pos h0, beq_eq_false_iff_ne.2 h1, Except.ok.injEq]
      exact ⟨fun h => ⟨h0.elim .inl fun h => .inr (.inr h), h⟩, And.right⟩
    · rw [if_neg h0]
      simp [h1, h0]

theorem mapM_decodeFlag_eq_ok_iff {bytes : Bytes} {flags : List Bool} :
    bytes.mapM decodeFlag = .ok flags ↔ (∀ b ∈ bytes, IsFlag b) ∧ bytes.map (· == 1) = flags := by
  simp only [mapM_eq_ok_iff, decodeFlag_eq_ok_iff]
  induction bytes generalizing flags with
  | nil => simp [eq_comm]
  | cons b bytes ih =>
    simp only [List.forall₂_cons_left_iff, ih, List.forall_mem_cons, List.map_cons]
    constructor
    · rintro ⟨value, flags, ⟨hb, rfl⟩, ⟨hbytes, rfl⟩, rfl⟩
      exact ⟨⟨hb, hbytes⟩, rfl⟩
    · rintro ⟨⟨hb, hbytes⟩, rfl⟩
      exact ⟨_, _, ⟨hb, rfl⟩, ⟨hbytes, rfl⟩, rfl⟩

theorem decodeString_eq_ok_iff {table text : Bytes} {offset : Nat} :
    decodeString table offset = .ok text ↔ TextAt table offset text := by
  unfold decodeString
  by_cases h : table.length < offset
  · rw [if_pos h]
    constructor
    · intro h'
      cases h'
    · rintro ⟨-, rest, heq⟩
      rw [List.drop_eq_nil_of_le (Nat.le_of_lt h)] at heq
      simp at heq
  · rw [if_neg h]
    have hzero := @Bytes.zeroTerminated?_eq_some_iff (table.drop offset) text
    simp only [TextAt, List.drop_zero] at hzero
    rw [TextAt, ← hzero]
    cases Bytes.zeroTerminated? (table.drop offset) <;> simp

/-- What an offset of a table stands for. -/
def SlotAt (table : Bytes) (offset : Int) : Slot → Prop
  | .absent => offset = -1
  | .canceled => offset = -2
  | .present text => ∃ position : Nat, offset = position ∧ TextAt table position text

theorem decodeSlot_eq_ok_iff {table : Bytes} {offset : Int} {slot : Slot} :
    decodeSlot table offset = .ok slot ↔ SlotAt table offset slot := by
  unfold decodeSlot
  split_ifs with h1 h2 h3
  · cases slot <;> simp [SlotAt, h1]
  · cases slot <;> simp [SlotAt, h2]
  · cases slot <;> simp [SlotAt, h1, h2]
    intro position h
    omega
  · obtain ⟨position, rfl⟩ := Int.eq_ofNat_of_zero_le (Int.not_lt.1 h3)
    cases slot with
    | absent =>
      cases h : decodeString table position <;> simp [SlotAt, Except.map, h, h1]
    | canceled =>
      cases h : decodeString table position <;> simp [SlotAt, Except.map, h, h2]
    | present text =>
      simp only [SlotAt, Int.natCast_inj, exists_eq_left', ← decodeString_eq_ok_iff,
        Int.toNat_natCast]
      cases h : decodeString table position <;> simp [Except.map]

/-- The name that an offset stands for is UTF-8. -/
def NameAt (table : Bytes) (offset : Int) (name : Bytes) : Prop :=
  ∃ position : Nat, offset = position ∧ TextAt table position name ∧ Bytes.Utf8.IsText name

theorem decodeName_eq_ok_iff {table name : Bytes} {offset : Int} :
    decodeName table offset = .ok name ↔ NameAt table offset name := by
  unfold decodeName
  rw [check_eq_ok_iff, bind_eq_ok_iff]
  constructor
  · rintro ⟨hoffset, text, htext, h⟩
    obtain ⟨position, rfl⟩ := Int.eq_ofNat_of_zero_le (Int.not_lt.1 hoffset)
    rw [Int.toNat_natCast, decodeString_eq_ok_iff] at htext
    cases hfault : Bytes.Utf8.fault? text with
    | none =>
      simp only [hfault, pure_eq_ok_iff] at h
      subst h
      exact ⟨position, rfl, htext, Bytes.Utf8.fault?_eq_none_iff.1 hfault⟩
    | some fault => simp [hfault] at h
  · rintro ⟨position, rfl, htext, hname⟩
    refine ⟨by omega, name, ?_, ?_⟩
    · rw [Int.toNat_natCast, decodeString_eq_ok_iff]
      exact htext
    · rw [Bytes.Utf8.fault?_eq_none_iff.2 hname]
      rfl

namespace Layout

variable {l : Layout} {data : Bytes}

theorem flags_stop_le (l : Layout) : l.flags.stop ≤ l.table.stop := by
  simp only [flags, numbers, offsets, nameOffsets, table, Span.stop, roundUpEven]
  omega

/-- The offsets of strings, as stored. -/
def storedOffsets (l : Layout) (data : Bytes) : List Int :=
  Bytes.signedList 2 l.stringCount (l.offsets.slice data)

/-- The offsets of names, as stored. -/
def storedNameOffsets (l : Layout) (data : Bytes) : List Int :=
  Bytes.signedList 2 l.nameCount (l.nameOffsets.slice data)

theorem decodeValues_eq_ok_iff {values : Values} : l.decodeValues data = .ok values ↔
    l.table.stop ≤ data.length ∧ (∀ b ∈ l.flags.slice data, IsFlag b) ∧
      (l.flags.slice data).map (· == 1) = values.flags ∧
      (Bytes.signedList l.width.bytes l.numberCount (l.numbers.slice data)).map decodeNumber =
        values.numbers ∧
      List.Forall₂ (SlotAt (l.table.slice data)) (l.storedOffsets data) values.strings := by
  unfold decodeValues
  simp only [bind_eq_ok_iff, check_eq_ok_iff, pure_eq_ok_iff, Span.read_eq_ok_iff,
    mapM_decodeFlag_eq_ok_iff, Nat.not_lt]
  simp only [mapM_eq_ok_iff, decodeSlot_eq_ok_iff]
  constructor
  · rintro ⟨bytes, ⟨-, rfl⟩, flags, ⟨hflags, rfl⟩, hstop, strings, hstrings, rfl⟩
    exact ⟨hstop, hflags, rfl, rfl, hstrings⟩
  · rintro ⟨hstop, hflags, hvalues, hnumbers, hstrings⟩
    refine ⟨_, ⟨Nat.le_trans l.flags_stop_le hstop, rfl⟩, _, ⟨hflags, hvalues⟩, hstop, _, hstrings, ?_⟩
    rw [hnumbers]

end Layout

theorem NumberWidth.ofMagic?_eq_some_iff {magic : Int} {width : NumberWidth} :
    ofMagic? magic = some width ↔ magic = width.magic := by
  unfold ofMagic?
  constructor
  · intro h
    split_ifs at h with hnarrow hwide
    · cases h
      exact hnarrow
    · cases h
      exact hwide
  · rintro rfl
    exact ofMagic?_magic width

namespace Header

variable {h : Header} {data : Bytes}

theorem read_eq_ok_iff : read data = .ok h ↔
    size ≤ data.length ∧ wordAt data 0 = h.width.magic ∧ wordAt data 2 = h.nameSize ∧
      wordAt data 4 = h.flagCount ∧ wordAt data 6 = h.numberCount ∧ wordAt data 8 = h.stringCount ∧
      wordAt data 10 = h.tableSize := by
  unfold read
  rw [check_eq_ok_iff, Nat.not_lt]
  constructor
  · rintro ⟨hsize, hread⟩
    split at hread
    · simp at hread
    · rename_i width hmagic
      rw [NumberWidth.ofMagic?_eq_some_iff] at hmagic
      simp only [bind_eq_ok_iff, countAt_eq_ok_iff, pure_eq_ok_iff] at hread
      obtain ⟨_, hnames, _, hflags, _, hnumbers, _, hstrings, _, htable, rfl⟩ := hread
      exact ⟨hsize, hmagic, hnames, hflags, hnumbers, hstrings, htable⟩
  · rintro ⟨hsize, hmagic, hnames, hflags, hnumbers, hstrings, htable⟩
    rw [hmagic, NumberWidth.ofMagic?_magic]
    simp only [bind_eq_ok_iff, countAt_eq_ok_iff, pure_eq_ok_iff]
    exact ⟨hsize, _, hnames, _, hflags, _, hnumbers, _, hstrings, _, htable, rfl⟩

theorem readNames_eq_ok_iff {names : Bytes} : h.readNames data = .ok names ↔
    h.names.stop ≤ data.length ∧ TextAt (h.names.slice data) 0 names := by
  unfold readNames
  simp only [bind_eq_ok_iff, Span.read_eq_ok_iff, ← Bytes.zeroTerminated?_eq_some_iff]
  constructor
  · rintro ⟨bytes, ⟨hstop, rfl⟩, hnames⟩
    cases hzero : Bytes.zeroTerminated? (h.names.slice data) with
    | none => simp [hzero] at hnames
    | some text =>
      rw [hzero, pure_eq_ok_iff] at hnames
      exact ⟨hstop, congrArg some hnames⟩
  · rintro ⟨hstop, hzero⟩
    refine ⟨_, ⟨hstop, rfl⟩, ?_⟩
    rw [hzero]
    rfl

end Header

theorem ExtensionHeader.read_eq_ok_iff {width : NumberWidth} {start : Nat} {data : Bytes}
    {h : ExtensionHeader} : read width start data = .ok h ↔
      h.width = width ∧ h.start = start ∧ wordAt data start = h.flagCount ∧
      wordAt data (start + 2) = h.numberCount ∧ wordAt data (start + 4) = h.stringCount ∧
      0 ≤ wordAt data (start + 6) ∧ wordAt data (start + 8) = h.tableSize := by
  unfold read
  simp only [bind_eq_ok_iff, countAt_eq_ok_iff, pure_eq_ok_iff]
  constructor
  · rintro ⟨_, hflags, _, hnumbers, _, hstrings, used, hused, _, htable, rfl⟩
    exact ⟨rfl, rfl, hflags, hnumbers, hstrings, by omega, htable⟩
  · rintro ⟨rfl, rfl, hflags, hnumbers, hstrings, hused, htable⟩
    obtain ⟨used, hused⟩ := Int.eq_ofNat_of_zero_le hused
    exact ⟨_, hflags, _, hnumbers, _, hstrings, used, hused, _, htable, rfl⟩

theorem Extension.decode_eq_ok_iff {h : ExtensionHeader} {data : Bytes} {x : Extension} :
    decode h data = .ok x ↔ ∃ values names, h.layout.decodeValues data = .ok values ∧
      Slot.totalSize values.strings ≤ (h.layout.table.slice data).length ∧
      List.Forall₂ (NameAt ((h.layout.table.slice data).drop (Slot.totalSize values.strings)))
        (h.layout.storedNameOffsets data) names ∧ ofValues values names = x := by
  unfold decode
  simp only [bind_eq_ok_iff, check_eq_ok_iff, pure_eq_ok_iff, mapM_eq_ok_iff, decodeName_eq_ok_iff,
    Nat.not_lt]
  constructor
  · rintro ⟨values, hvalues, hsize, names, hnames, rfl⟩
    exact ⟨values, names, hvalues, hsize, hnames, rfl⟩
  · rintro ⟨values, names, hvalues, hsize, hnames, rfl⟩
    exact ⟨values, hvalues, hsize, names, hnames, rfl⟩

namespace Entry

/-- What may follow the standard sections: too little for an extension, or one that decodes. -/
theorem decodeExtension_eq_ok_iff {h : Header} {data : Bytes} {extension : Option Extension} :
    decodeExtension h data = .ok extension ↔
      match extension with
      | none => data.length < h.extensionStart + ExtensionHeader.size
      | some x => h.extensionStart + ExtensionHeader.size ≤ data.length ∧
          ∃ header, ExtensionHeader.read h.width h.extensionStart data = .ok header ∧
            Extension.decode header data = .ok x := by
  unfold decodeExtension
  by_cases hsize : data.length < h.extensionStart + ExtensionHeader.size
  · rw [if_pos hsize]
    cases extension with
    | none => simpa using hsize
    | some x =>
      simp only [pure_eq_ok_iff]
      constructor
      · intro h'
        cases h'
      · intro h'
        omega
  · rw [if_neg hsize]
    simp only [bind_eq_ok_iff, pure_eq_ok_iff]
    cases extension with
    | none => simpa using hsize
    | some x =>
      simp only [Option.some.injEq, exists_eq_right]
      exact ⟨fun h' => ⟨Nat.not_lt.1 hsize, h'⟩, And.right⟩

theorem decode_eq_ok_iff {data : Bytes} {e : Entry} : decode data = .ok e ↔
    e.data = data ∧ ∃ header, Header.read data = .ok header ∧
      header.readNames data = .ok e.names ∧
      header.layout.decodeValues data = .ok e.standard ∧
      decodeExtension header data = .ok e.extension := by
  unfold decode
  simp only [bind_eq_ok_iff, pure_eq_ok_iff]
  constructor
  · rintro ⟨header, hheader, names, hnames, standard, hstandard, extension, hextension, rfl⟩
    exact ⟨rfl, header, hheader, hnames, hstandard, hextension⟩
  · rintro ⟨rfl, header, hheader, hnames, hstandard, hextension⟩
    exact ⟨header, hheader, _, hnames, _, hstandard, _, hextension, rfl⟩

end Entry
end TerminalCaps

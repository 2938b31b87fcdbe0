import TerminalCaps.Proofs.Entry.Decoding
import TerminalCaps.Proofs.Entry.Encoding

/-! Written sections are decoded wherever they stand, and so are the names behind the strings. -/
namespace TerminalCaps

/-- A part of some bytes is found where the parts before it end. -/
theorem Span.slice_flatten {s : Span} {parts : List Bytes} {before part : Bytes} (i : Nat)
    (hpart : parts[i]? = some part) (hstart : s.start = (before ++ (parts.take i).flatten).length)
    (hsize : s.size = part.length) (after : Bytes) :
    s.slice (before ++ (parts.flatten ++ after)) = part := by
  obtain ⟨hi, rfl⟩ := List.getElem?_eq_some_iff.1 hpart
  have hsplit : parts.flatten =
      (parts.take i).flatten ++ (parts[i] ++ (parts.drop (i + 1)).flatten) := by
    rw [← List.flatten_cons, ← List.drop_eq_getElem_cons hi, ← List.flatten_append,
      List.take_append_drop]
  rw [hsplit, List.append_assoc, List.append_assoc, ← List.append_assoc before, slice, hstart, hsize,
    List.drop_left, List.take_left]

theorem length_padding (n : Nat) : (padding n).length = n % 2 := by
  simp [padding]

section Words

variable {words : List Int}

theorem length_writeWords (words : List Int) : (writeWords words).length = 2 * words.length := by
  induction words with
  | nil => rfl
  | cons n words ih =>
    rw [writeWords, List.flatMap_cons, List.length_append, Bytes.length_littleEndian] at *
    rw [ih, List.length_cons]
    omega

/-- The numbers that two bytes hold. -/
def IsWord (n : Int) : Prop := -32768 ≤ n ∧ n ≤ 32767

theorem IsWord.bmod_eq {n : Int} (h : IsWord n) : Int.bmod n (Nat.pow 256 2) = n := by
  have hpow : Nat.pow 256 2 = 65536 := rfl
  obtain ⟨hlow, hhigh⟩ := h
  rw [hpow, Int.bmod_eq_of_le] <;> omega

theorem isWord_of_le {n : Nat} (h : n ≤ maxCount) : IsWord n := by
  unfold maxCount at h
  constructor <;> omega

theorem isWord_magic (width : NumberWidth) : IsWord width.magic := by
  cases width <;> constructor <;> decide

theorem NumberWidth.Fits.bmod_eq {width : NumberWidth} {n : Int} (h : width.Fits n) :
    Int.bmod n (Nat.pow 256 width.bytes) = n := by
  cases width with
  | narrow => exact IsWord.bmod_eq h
  | wide =>
    have hpow : Nat.pow 256 NumberWidth.wide.bytes = 4294967296 := rfl
    obtain ⟨hlow, hhigh⟩ := h
    rw [hpow, Int.bmod_eq_of_le] <;> omega

/-- Words are read back at their places. -/
theorem wordAt_writeWords (h : ∀ n ∈ words, IsWord n) {i : Nat} (hi : i < words.length)
    (before after : Bytes) :
    wordAt (before ++ (writeWords words ++ after)) (before.length + 2 * i) = words[i] := by
  induction words generalizing before i with
  | nil => exact absurd hi (Nat.not_lt_zero i)
  | cons n words ih =>
    have hn := (h n List.mem_cons_self).bmod_eq
    rw [writeWords, List.flatMap_cons, ← writeWords, List.append_assoc]
    cases i with
    | zero =>
      rw [Nat.mul_zero, Nat.add_zero, wordAt, List.drop_left,
        List.take_left' (Bytes.length_littleEndian 2 n), Bytes.signed_littleEndian, hn]
      rfl
    | succ i =>
      have htail := ih (fun m hm => h m (List.mem_cons_of_mem n hm)) (Nat.lt_of_succ_lt_succ hi)
        (before ++ Bytes.littleEndian 2 n)
      rw [List.append_assoc, List.length_append, Bytes.length_littleEndian] at htail
      rw [show before.length + 2 * (i + 1) = before.length + 2 + 2 * i by omega, htail]
      rfl

theorem signedList_writeWords (h : ∀ n ∈ words, IsWord n) :
    Bytes.signedList 2 words.length (writeWords words) = words := by
  have hlist := Bytes.signedList_flatMap (fun n hn => (h n hn).bmod_eq) []
  rwa [List.append_nil] at hlist

end Words

namespace Slot

theorem length_flatMap_stored (slots : List Slot) :
    (slots.flatMap stored).length = totalSize slots := by
  induction slots with
  | nil => rfl
  | cons slot slots ih =>
    have hstored : slot.stored.length = slot.storedSize := by
      cases slot <;> simp [stored, storedSize]
    rw [List.flatMap_cons, List.length_append, ih, hstored]
    rfl

@[simp] theorem length_offsetsFrom (start : Nat) (slots : List Slot) :
    (offsetsFrom start slots).length = slots.length := by
  induction slots generalizing start with
  | nil => rfl
  | cons slot slots ih => cases slot <;> simp [offsetsFrom, ih]

/-- No offset lies behind the end of the strings. -/
theorem isWord_of_mem_offsetsFrom {start : Nat} {slots : List Slot}
    (hsize : start + (slots.flatMap stored).length ≤ maxCount) :
    ∀ n ∈ offsetsFrom start slots, IsWord n := by
  induction slots generalizing start with
  | nil => simp [offsetsFrom]
  | cons slot slots ih =>
    rw [List.flatMap_cons, List.length_append] at hsize
    cases slot with
    | absent =>
      rw [offsetsFrom, List.forall_mem_cons]
      exact ⟨by constructor <;> decide, ih (by omega)⟩
    | canceled =>
      rw [offsetsFrom, List.forall_mem_cons]
      exact ⟨by constructor <;> decide, ih (by omega)⟩
    | present text =>
      rw [offsetsFrom, List.forall_mem_cons]
      simp only [stored, List.length_append, List.length_singleton] at hsize
      exact ⟨isWord_of_le (by omega), ih (by omega)⟩

/-- Strings that stand one after another in a table are found at their offsets. -/
theorem slotAt_offsetsFrom {slots : List Slot} (h : ∀ text, .present text ∈ slots → 0 ∉ text)
    (before after : Bytes) :
    List.Forall₂ (SlotAt (before ++ (slots.flatMap stored ++ after)))
      (offsetsFrom before.length slots) slots := by
  induction slots generalizing before with
  | nil => exact .nil
  | cons slot slots ih =>
    have hslots := fun text htext => h text (List.mem_cons_of_mem slot htext)
    rw [List.flatMap_cons]
    cases slot with
    | absent => exact .cons rfl (ih hslots before)
    | canceled => exact .cons rfl (ih hslots before)
    | present text =>
      have htail := ih hslots (before ++ stored (.present text))
      simp only [stored, List.length_append, List.length_singleton, List.append_assoc] at htail ⊢
      refine .cons ⟨before.length, rfl, h text List.mem_cons_self, ?_⟩ htail
      exact ⟨_, List.drop_left⟩

end Slot

namespace Sections

variable {s : Sections} {width : NumberWidth}

theorem length_numbers (width : NumberWidth) (numbers : List Int) :
    (numbers.flatMap (Bytes.littleEndian width.bytes)).length = width.bytes * numbers.length := by
  induction numbers with
  | nil => rfl
  | cons n numbers ih =>
    rw [List.flatMap_cons, List.length_append, ih, Bytes.length_littleEndian, List.length_cons,
      Nat.mul_succ, Nat.add_comm]

section Slices

variable (s) (width) (before after : Bytes)

theorem slice_flags : (s.layout width before.length).flags.slice
    (before ++ (s.write width before.length ++ after)) = s.flags := by
  apply Span.slice_flatten 0 rfl _ rfl
  rw [List.take_zero, List.flatten_nil, List.append_nil]
  rfl

theorem slice_numbers : (s.layout width before.length).numbers.slice
    (before ++ (s.write width before.length ++ after)) =
      s.numbers.flatMap (Bytes.littleEndian width.bytes) := by
  apply Span.slice_flatten 2 rfl _ (length_numbers width s.numbers).symm
  simp only [parts, List.take_succ_cons, List.take_zero, List.flatten_cons, List.flatten_nil,
    List.length_append, List.length_nil, length_padding]
  simp only [layout, Layout.numbers, Layout.flags, Span.stop, roundUpEven]
  omega

theorem slice_offsets : (s.layout width before.length).offsets.slice
    (before ++ (s.write width before.length ++ after)) =
      writeWords (Slot.offsetsFrom 0 s.strings) := by
  apply Span.slice_flatten 3 rfl
  · simp only [parts, List.take_succ_cons, List.take_zero, List.flatten_cons, List.flatten_nil,
      List.length_append, List.length_nil, length_padding, length_numbers]
    simp only [layout, Layout.offsets, Layout.numbers, Layout.flags, Span.stop, roundUpEven]
    omega
  · rw [length_writeWords, Slot.length_offsetsFrom]
    rfl

theorem slice_nameOffsets : (s.layout width before.length).nameOffsets.slice
    (before ++ (s.write width before.length ++ after)) =
      writeWords (Slot.offsetsFrom 0 s.nameSlots) := by
  apply Span.slice_flatten 4 rfl
  · simp only [parts, List.take_succ_cons, List.take_zero, List.flatten_cons, List.flatten_nil,
      List.length_append, List.length_nil, length_padding, length_numbers, length_writeWords,
      Slot.length_offsetsFrom]
    simp only [layout, Layout.nameOffsets, Layout.offsets, Layout.numbers, Layout.flags, Span.stop,
      roundUpEven]
    omega
  · rw [length_writeWords, Slot.length_offsetsFrom, nameSlots, List.length_map]
    rfl

theorem table_start (start : Nat) : (s.layout width start).table.start + s.table.length =
    start + (s.write width start).length := by
  simp only [write, parts, List.flatten_cons, List.flatten_nil, List.length_append, List.length_nil,
    length_padding, length_numbers, length_writeWords, Slot.length_offsetsFrom, nameSlots,
    List.length_map]
  simp only [layout, Layout.table, Layout.nameOffsets, Layout.offsets, Layout.numbers, Layout.flags,
    Span.stop, roundUpEven]
  omega

theorem slice_table : (s.layout width before.length).table.slice
    (before ++ (s.write width before.length ++ after)) = s.table := by
  apply Span.slice_flatten 5 rfl _ rfl
  have hstart := s.table_start width before.length
  simp only [write, parts, List.take_succ_cons, List.take_zero, List.flatten_cons, List.flatten_nil,
    List.length_append, List.length_nil] at hstart ⊢
  omega

end Slices

theorem WellFormed.isWord_offsets (h : s.WellFormed width) :
    (∀ n ∈ Slot.offsetsFrom 0 s.strings, IsWord n) ∧
      ∀ n ∈ Slot.offsetsFrom 0 s.nameSlots, IsWord n := by
  have hsize := h.tableSize
  rw [table, List.length_append] at hsize
  constructor
  · apply Slot.isWord_of_mem_offsetsFrom
    omega
  · apply Slot.isWord_of_mem_offsetsFrom
    omega

/-- Written sections are decoded wherever they stand, and what follows does not matter. -/
theorem decodeValues_write (h : s.WellFormed width) (before after : Bytes) :
    (s.layout width before.length).decodeValues
        (before ++ (s.write width before.length ++ after)) =
      .ok ⟨s.flags.map (· == 1), s.numbers.map decodeNumber, s.strings⟩ := by
  rw [Layout.decodeValues_eq_ok_iff]
  have hstop : (s.layout width before.length).table.stop =
      before.length + (s.write width before.length).length := s.table_start width before.length
  refine ⟨?_, ?_, ?_, ?_, ?_⟩
  · rw [hstop, List.length_append, List.length_append]
    omega
  · rw [slice_flags]
    exact h.flags
  · rw [slice_flags]
  · rw [slice_numbers]
    have hnumbers := Bytes.signedList_flatMap (fun n hn => (h.numbers n hn).bmod_eq) []
    rw [List.append_nil] at hnumbers
    exact congrArg _ hnumbers
  · have hoffsets := signedList_writeWords h.isWord_offsets.1
    rw [Slot.length_offsetsFrom] at hoffsets
    rw [Layout.storedOffsets, slice_offsets, slice_table]
    change List.Forall₂ _ (Bytes.signedList 2 s.strings.length _) _
    rw [hoffsets]
    exact Slot.slotAt_offsetsFrom h.strings [] _

theorem drop_table (s : Sections) :
    s.table.drop (Slot.totalSize s.strings) = s.nameSlots.flatMap Slot.stored := by
  rw [table, List.drop_left' (Slot.length_flatMap_stored s.strings)]

theorem storedNameOffsets_write (h : s.WellFormed width) (before after : Bytes) :
    (s.layout width before.length).storedNameOffsets
        (before ++ (s.write width before.length ++ after)) = Slot.offsetsFrom 0 s.nameSlots := by
  have hcount : s.names.length = (Slot.offsetsFrom 0 s.nameSlots).length := by
    rw [Slot.length_offsetsFrom, nameSlots, List.length_map]
  rw [Layout.storedNameOffsets, slice_nameOffsets]
  change Bytes.signedList 2 s.names.length _ = _
  rw [hcount, signedList_writeWords h.isWord_offsets.2]

/-- The offsets of the names, which count from the end of the strings, lead to the names. -/
theorem nameAt_offsetsFrom (h : s.WellFormed width) :
    List.Forall₂ (NameAt (s.table.drop (Slot.totalSize s.strings)))
      (Slot.offsetsFrom 0 s.nameSlots) s.names := by
  have hzero : ∀ text, Slot.present text ∈ s.nameSlots → 0 ∉ text := by
    intro text htext
    rw [nameSlots, List.mem_map_of_injective fun _ _ => Slot.present.inj] at htext
    exact (h.names text htext).1
  have hslots := Slot.slotAt_offsetsFrom hzero [] []
  rw [List.append_nil, List.nil_append, List.length_nil, ← drop_table] at hslots
  nth_rewrite 2 [nameSlots] at hslots
  rw [List.forall₂_map_right_iff] at hslots
  have hboth := (List.forall₂_and_left s.names _).2 ⟨fun name hname => (h.names name hname).2,
    hslots.flip⟩
  refine hboth.flip.imp ?_
  rintro offset name ⟨htext, position, hoffset, hposition⟩
  exact ⟨position, hoffset, hposition, htext⟩

end Sections
end TerminalCaps

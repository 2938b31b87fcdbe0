import Mathlib.Data.List.Dedup
import TerminalCaps.Proofs.Entry.NamePlaces
import TerminalCaps.Proofs.Entry.Positions

/-!
The names that an entry gives itself, by kind. They are listed in the order of their bytes, each once,
and of two values with one name the first is found.
-/
namespace TerminalCaps

namespace Bytes

theorem nodup_ordered (names : List Bytes) : (ordered names).Nodup := by
  apply List.Pairwise.imp _ (pairwise_ordered names)
  rintro name _ hlt rfl
  exact List.lt_irrefl name hlt

/-- A list gets shorter in order exactly if a name occurs twice in it. -/
theorem length_ordered_eq_iff {names : List Bytes} :
    (ordered names).length = names.length ↔ names.Nodup := by
  have hperm : (ordered names).Perm names.dedup := by
    apply (List.perm_ext_iff_of_nodup (nodup_ordered names) names.nodup_dedup).2
    intro name
    rw [mem_ordered, List.mem_dedup]
  rw [hperm.length_eq, ← List.dedup_eq_self]
  exact ⟨names.dedup_sublist.eq_of_length, congrArg List.length⟩

theorem idxOf_eq_of_first {names : List Bytes} {name : Bytes} {i : Nat}
    (hname : names[i]? = some name) (hfirst : ∀ j < i, names[j]? ≠ some name) :
    names.idxOf name = i := by
  obtain ⟨hi, rfl⟩ := List.getElem?_eq_some_iff.1 hname
  refine (List.findIdx_eq hi).2 ⟨beq_self_eq_true _, fun j hj => ?_⟩
  have hne := hfirst j hj
  rw [List.getElem?_eq_getElem (hj.trans hi)] at hne
  exact beq_false_of_ne fun heq => hne (congrArg some heq)

end Bytes

/-- Names of one kind, as they are stored, as they are listed and as they are looked up. The value of
a name has the first index of the name, and a name of another kind only is not found. -/
structure NameMap {γ : Type} (stored listed : List Bytes) (count : Nat) (answer : Bytes → Option γ)
    (value : Nat → Option γ) : Prop where
  ascending : listed.Pairwise (· < ·)
  nodup : listed.Nodup
  mem_listed_iff : ∀ name, name ∈ listed ↔ name ∈ stored
  first : ∀ i name, stored[i]? = some name → (∀ j < i, stored[j]? ≠ some name) →
    answer name = value i
  other : ∀ name, name ∉ stored → answer name = none
  count_eq : count = stored.length
  length_listed_iff : listed.length = count ↔ stored.Nodup

theorem nameMap_zip {β γ : Type} {names : List Bytes} {values : List β} {pairs : List (Bytes × β)}
    (hpairs : pairs = names.zip values) (h : names.length = values.length) (read : β → Option γ)
    {answer : Bytes → Option γ} {value : Nat → Option γ}
    (hanswer : ∀ name, answer name = (pairs.lookup name).bind read)
    (hvalue : ∀ i v, values[i]? = some v → read v = value i) :
    NameMap names (Bytes.ordered (pairs.map Prod.fst)) pairs.length answer value := by
  subst hpairs
  have hcount : (names.zip values).length = names.length := by
    rw [List.length_zip, ← h, Nat.min_self]
  refine ⟨Bytes.pairwise_ordered _, Bytes.nodup_ordered _, mem_ordered_zip h, ?_, ?_, hcount, ?_⟩
  · intro i name hname hfirst
    have hi : i < values.length := h ▸ (List.getElem?_eq_some_iff.1 hname).1
    have hget := List.getElem?_eq_getElem hi
    rw [hanswer, lookup_zip h, Bytes.idxOf_eq_of_first hname hfirst, hget]
    exact hvalue i _ hget
  · intro name hname
    rw [hanswer, lookup_zip h, List.idxOf_eq_length hname, h, List.getElem?_eq_none (Nat.le_refl _)]
    rfl
  · rw [List.map_fst_zip (Nat.le_of_eq h), hcount]
    exact Bytes.length_ordered_eq_iff

namespace Format

/-- The place of the first number of the extension. -/
def extendedNumbers (data : Bytes) : Nat :=
  (extension data).flags + (extension data).flagCount + (extension data).flagCount % 2

/-- Names that stand in the data one after another, beginning with the one at an index. -/
def NamesStand (data : Bytes) (first : Nat) (names : List Bytes) : Prop :=
  ∀ i name, names[i]? = some name →
    (extension data).NameStands data ((extension data).stringsSize data) (first + i) name

/-- The names of an extension by kind, and the values that are found by them. -/
structure NamesMapped (data : Bytes) (e : Entry) (flagNames numberNames stringNames : List Bytes) :
    Prop where
  flagCount : flagNames.length = count data (extensionStart data)
  numberCount : numberNames.length = count data (extensionStart data + 2)
  stringCount : stringNames.length = count data (extensionStart data + 4)
  flagsStand : NamesStand data 0 flagNames
  numbersStand : NamesStand data flagNames.length numberNames
  stringsStand : NamesStand data (flagNames.length + numberNames.length) stringNames
  flags : NameMap flagNames e.extendedFlagNames e.extendedFlags.length e.extendedFlag fun i =>
    some (data[(extension data).flags + i]? == some 1)
  numbers : NameMap numberNames e.extendedNumberNames e.extendedNumbers.length e.extendedNumber
    fun i => decodeNumber
      (number (header data).width data (extendedNumbers data + numberSize data * i))
  strings : NameMap stringNames e.extendedStringNames e.extendedStrings.length e.extendedString
    fun i => (Slot.ofOffset ((data.take (extension data).stop).drop (extension data).table)
      ((extension data).offset data i)).text?

theorem NamesStand.of_append {data : Bytes} {first : Nat} {names others : List Bytes}
    (h : NamesStand data first (names ++ others)) :
    NamesStand data first names ∧ NamesStand data (first + names.length) others := by
  constructor
  · intro i name hname
    have hi := (List.getElem?_eq_some_iff.1 hname).1
    apply h i name
    rwa [List.getElem?_append_left hi]
  · intro i name hname
    rw [Nat.add_assoc]
    apply h (names.length + i) name
    rwa [List.getElem?_append_right (Nat.le_add_right _ _), Nat.add_sub_cancel_left]

theorem namesStand_names {data : Bytes} {x : Extension}
    (h : Extension.decode (extensionHeader data) data = .ok x) : NamesStand data 0 x.names := by
  obtain ⟨hcount, hstand⟩ := Extension.names_stand h
  rw [places_extension] at hstand
  intro i name hname
  have hi := (List.getElem?_eq_some_iff.1 hname).1
  obtain ⟨stored, hstored, hplace⟩ := hstand i (hcount ▸ hi)
  obtain rfl : stored = name := Option.some.inj (hstored.symm.trans hname)
  rwa [Nat.zero_add]

end Format

namespace Entry

open Format

/-- What the names of an extension answer is what the table of names says, whose names are those of the
flags, of the numbers and of the strings, each in the order of the values. -/
theorem decode_namesMapped {data : Bytes} {e : Entry} (h : decode data = .ok e)
    (hsome : e.extension.isSome) : ∃ flagNames numberNames stringNames,
      NamesMapped data e flagNames numberNames stringNames := by
  obtain ⟨x, hx, hdecode⟩ := (sectionsAccepted_of_decode h hsome).exists_extension h
  have hstand := namesStand_names hdecode
  obtain ⟨values, flagNames, numberNames, stringNames, hvalues, -, hflags, hnumbers, hstrings, rfl⟩ :=
    Extension.exists_names hdecode
  rw [Extension.names_zip hflags hnumbers hstrings] at hstand
  obtain ⟨hflagNames, hlater⟩ := hstand.of_append
  rw [Nat.zero_add] at hlater
  obtain ⟨hnumberNames, hstringNames⟩ := hlater.of_append
  have hshows := Layout.shows_of_decodeValues hvalues
  have hlistedFlags : e.extendedFlags = flagNames.zip values.flags := by
    rw [extendedFlags, hx]
    rfl
  have hlistedNumbers : e.extendedNumbers = numberNames.zip values.numbers := by
    rw [extendedNumbers, hx]
    rfl
  have hlistedStrings : e.extendedStrings = stringNames.zip values.strings := by
    rw [extendedStrings, hx]
    rfl
  refine ⟨flagNames, numberNames, stringNames, ?_⟩
  exact {
    flagCount := hflags.trans hshows.flagCount
    numberCount := hnumbers.trans hshows.numberCount
    stringCount := hstrings.trans hshows.stringCount
    flagsStand := hflagNames
    numbersStand := hnumberNames
    stringsStand := hstringNames
    flags := by
      refine nameMap_zip hlistedFlags hflags some (fun _ => (Option.bind_fun_some _).symm) ?_
      intro i b hb
      rw [hshows.flag, hshows.flagIn?_eq_some_iff] at hb
      exact congrArg some hb.2.symm
    numbers := by
      refine nameMap_zip hlistedNumbers hnumbers id (fun _ => rfl) ?_
      intro i n hn
      rw [hshows.number, Option.map_eq_some_iff] at hn
      obtain ⟨stored, hstored, rfl⟩ := hn
      rw [hshows.numberIn?_eq_some_iff, numbers_start_extensionHeader] at hstored
      obtain ⟨-, rfl⟩ := hstored
      rw [← bytes_width]
      rfl
    strings := by
      refine nameMap_zip hlistedStrings hstrings Slot.text? (fun _ => rfl) ?_
      intro i slot hslot
      rw [hshows.slot, Option.map_eq_some_iff] at hslot
      obtain ⟨offset, hoffset, hslot⟩ := hslot
      have hi := (hshows.offsetIn?_eq_some_iff.1 hoffset).1
      rw [Layout.slotIn_eq_iff hvalues hi, places_extension] at hslot
      exact congrArg Slot.text? (Slot.ofOffset_eq hslot).symm }

/-- Of the flags, the first two have the same name. -/
theorem decode_namesMapped_mixedSource :
    let source := EntrySource.mixedSource
    let e := source.decoded
    decode source.encode = .ok e ∧
      (∃ flagNames numberNames stringNames,
        NamesMapped source.encode e flagNames numberNames stringNames) ∧
      e.extendedFlags.length = 3 ∧ e.extendedFlagNames = [Bytes.ofAscii "AX", [0xC3, 0xA9]] ∧
      e.extendedFlag (Bytes.ofAscii "AX") = some true := by
  have hdecode := EntrySource.decode_encode EntrySource.mixedSource_wellFormed
  exact ⟨hdecode, decode_namesMapped hdecode rfl, rfl, by decide, by decide⟩

end Entry
end TerminalCaps

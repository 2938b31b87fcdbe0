import Mathlib.Data.List.Forall2
import TerminalCaps.Bytes.Utf8

/-! Texts of characters: what is read without a fault is exactly the UTF-8 of some characters. -/
namespace TerminalCaps.Bytes.Utf8

/-- The text of some characters, each in its own bytes. -/
def IsText (text : Bytes) : Prop :=
  ∃ characters : List Char, text = characters.flatMap String.utf8EncodeChar

/-- The bytes after the first one of a character. -/
def Completes (first : UInt8) (more : Bytes) : Prop :=
  ∃ owed, owedAfter? first = some owed ∧ List.Forall₂ (fun r b => r.contains b = true) owed more

namespace ByteRange

theorem contains_iff {r : ByteRange} {b : UInt8} :
    r.contains b = true ↔ r.low.toNat ≤ b.toNat ∧ b.toNat ≤ r.high.toNat := by
  simp [contains, UInt8.le_iff_toNat_le]

end ByteRange

theorem faultFrom_eq_none_iff {start seen : Nat} {owed : List ByteRange} {text : Bytes} :
    faultFrom start seen owed text = none ↔ ∃ more rest, text = more ++ rest ∧
      List.Forall₂ (fun r b => r.contains b = true) owed more ∧ fault? rest = none := by
  induction text generalizing start seen owed with
  | nil =>
    cases owed with
    | nil => simp [faultFrom, fault?]
    | cons r owed =>
      simp [faultFrom]
  | cons b rest ih =>
    cases owed with
    | nil =>
      have hsame : faultFrom start seen [] (b :: rest) = none ↔ fault? (b :: rest) = none := by
        unfold fault? faultFrom
        cases owedAfter? b with
        | none => simp
        | some owed => exact ih.trans ih.symm
      simp [hsame]
    | cons r owed =>
      unfold faultFrom
      by_cases hr : r.contains b = true
      · rw [if_pos hr, ih]
        constructor
        · rintro ⟨more, rest', rfl, hmore, hrest⟩
          exact ⟨b :: more, rest', rfl, .cons hr hmore, hrest⟩
        · rintro ⟨more, rest', heq, hmore, hrest⟩
          cases hmore with
          | cons h hmore =>
            obtain ⟨rfl, rfl⟩ := List.cons.inj heq
            exact ⟨_, rest', rfl, hmore, hrest⟩
      · rw [if_neg hr]
        constructor
        · intro h
          cases h
        · rintro ⟨more, rest', heq, hmore, -⟩
          cases hmore with
          | cons h hmore =>
            obtain ⟨rfl, -⟩ := List.cons.inj heq
            exact absurd h hr

theorem fault?_cons_eq_none_iff {b : UInt8} {rest : Bytes} :
    fault? (b :: rest) = none ↔ ∃ more rest', rest = more ++ rest' ∧ Completes b more ∧
      fault? rest' = none := by
  rw [fault?, faultFrom]
  unfold Completes
  cases owedAfter? b with
  | none => simp
  | some owed => simpa using faultFrom_eq_none_iff

/-- The bytes of the character of a scalar value, as numbers. -/
def scalarBytes (n : Nat) : List Nat :=
  if n < 0x80 then [n]
  else if n < 0x800 then [n / 64 + 0xC0, n % 64 + 0x80]
  else if n < 0x10000 then [n / 4096 + 0xE0, n / 64 % 64 + 0x80, n % 64 + 0x80]
  else [n / 262144 + 0xF0, n / 4096 % 64 + 0x80, n / 64 % 64 + 0x80, n % 64 + 0x80]

theorem toNat_utf8EncodeChar (c : Char) :
    (String.utf8EncodeChar c).map UInt8.toNat = scalarBytes c.toNat := by
  have hvalid : c.toNat < 0xD800 ∨ 0xDFFF < c.toNat ∧ c.toNat < 0x110000 := c.valid
  unfold String.utf8EncodeChar scalarBytes
  change List.map _ (if c.toNat ≤ 0x7f then [UInt8.ofNat c.toNat] else if c.toNat ≤ 0x7ff then
    [UInt8.ofNat (c.toNat / 64 % 0x20 + 0xc0), UInt8.ofNat (c.toNat % 0x40 + 0x80)] else
    if c.toNat ≤ 0xffff then [UInt8.ofNat (c.toNat / 4096 % 0x10 + 0xe0),
      UInt8.ofNat (c.toNat / 64 % 0x40 + 0x80), UInt8.ofNat (c.toNat % 0x40 + 0x80)] else
    [UInt8.ofNat (c.toNat / 262144 % 0x08 + 0xf0), UInt8.ofNat (c.toNat / 4096 % 0x40 + 0x80),
      UInt8.ofNat (c.toNat / 64 % 0x40 + 0x80), UInt8.ofNat (c.toNat % 0x40 + 0x80)]) = _
  generalize c.toNat = n at hvalid
  split_ifs <;> simp only [List.map_cons, List.map_nil, UInt8.toNat_ofNat', List.cons.injEq,
    and_true] <;> omega

theorem exists_character {n : Nat} {text : Bytes} (hn : n.isValidChar)
    (h : text.map UInt8.toNat = scalarBytes n) : ∃ c : Char, String.utf8EncodeChar c = text := by
  refine ⟨Char.ofNatAux n hn, ?_⟩
  have hc := toNat_utf8EncodeChar (Char.ofNatAux n hn)
  have hval : (Char.ofNatAux n hn).toNat = n := rfl
  rw [hval, ← h] at hc
  exact List.map_injective_iff.2 (fun _ _ => UInt8.toNat_inj.1) hc

theorem scalarBytes_two {a b : Nat} (ha : 0xC2 ≤ a ∧ a < 0xE0) (hb : 0x80 ≤ b ∧ b < 0xC0) :
    scalarBytes ((a - 0xC0) * 64 + (b - 0x80)) = [a, b] := by
  unfold scalarBytes
  rw [if_neg (by omega), if_pos (by omega)]
  simp only [List.cons.injEq, and_true]
  omega

theorem scalarBytes_three {a b c : Nat} (ha : 0xE0 ≤ a ∧ a < 0xF0) (hb : 0x80 ≤ b ∧ b < 0xC0)
    (hc : 0x80 ≤ c ∧ c < 0xC0) (hlow : a = 0xE0 → 0xA0 ≤ b) :
    scalarBytes ((a - 0xE0) * 4096 + (b - 0x80) * 64 + (c - 0x80)) = [a, b, c] := by
  unfold scalarBytes
  rw [if_neg (by omega), if_neg (by omega), if_pos (by omega)]
  simp only [List.cons.injEq, and_true]
  omega

theorem scalarBytes_four {a b c d : Nat} (ha : 0xF0 ≤ a ∧ a < 0xF8) (hb : 0x80 ≤ b ∧ b < 0xC0)
    (hc : 0x80 ≤ c ∧ c < 0xC0) (hd : 0x80 ≤ d ∧ d < 0xC0) (hlow : a = 0xF0 → 0x90 ≤ b) :
    scalarBytes ((a - 0xF0) * 262144 + (b - 0x80) * 4096 + (c - 0x80) * 64 + (d - 0x80)) =
      [a, b, c, d] := by
  unfold scalarBytes
  rw [if_neg (by omega), if_neg (by omega), if_neg (by omega)]
  simp only [List.cons.injEq, and_true]
  omega

open ByteRange in
/-- The first bytes of characters in their ranges, and what is owed after them. -/
theorem owedAfter?_eq_some_iff {b : UInt8} {owed : List ByteRange} : owedAfter? b = some owed ↔
    b.toNat < 0x80 ∧ owed = [] ∨
    (0xC2 ≤ b.toNat ∧ b.toNat < 0xE0) ∧ owed = [continuation] ∨
    b.toNat = 0xE0 ∧ owed = [⟨0xA0, 0xBF⟩, continuation] ∨
    b.toNat = 0xED ∧ owed = [⟨0x80, 0x9F⟩, continuation] ∨
    (0xE1 ≤ b.toNat ∧ b.toNat < 0xF0 ∧ b.toNat ≠ 0xED) ∧ owed = [continuation, continuation] ∨
    b.toNat = 0xF0 ∧ owed = [⟨0x90, 0xBF⟩, continuation, continuation] ∨
    (0xF1 ≤ b.toNat ∧ b.toNat < 0xF4) ∧ owed = [continuation, continuation, continuation] ∨
    b.toNat = 0xF4 ∧ owed = [⟨0x80, 0x8F⟩, continuation, continuation] := by
  unfold owedAfter?
  repeat' split
  all_goals simp only [UInt8.lt_iff_toNat_lt, ← UInt8.toNat_inj, UInt8.reduceToNat,
    Option.some.injEq, reduceCtorEq, false_iff] at *
  all_goals grind

/-- The first byte of a character and those that may follow it come from a scalar value. -/
theorem Completes.exists_scalar {first : UInt8} {more : Bytes} (h : Completes first more) :
    ∃ n, n.isValidChar ∧ (first :: more).map UInt8.toNat = scalarBytes n := by
  obtain ⟨owed, howed, hmore⟩ := h
  unfold Nat.isValidChar
  rcases owedAfter?_eq_some_iff.1 howed with ⟨hfirst, rfl⟩ | ⟨hfirst, rfl⟩ | ⟨hfirst, rfl⟩ |
    ⟨hfirst, rfl⟩ | ⟨hfirst, rfl⟩ | ⟨hfirst, rfl⟩ | ⟨hfirst, rfl⟩ | ⟨hfirst, rfl⟩
  all_goals simp only [List.forall₂_nil_left_iff, List.forall₂_cons_left_iff,
    ByteRange.contains_iff, ByteRange.continuation, UInt8.reduceToNat] at hmore
  · subst hmore
    exact ⟨first.toNat, by omega, by simp [scalarBytes, hfirst]⟩
  · obtain ⟨b, _, hb, rfl, rfl⟩ := hmore
    exact ⟨_, by omega, (scalarBytes_two hfirst (by omega)).symm⟩
  iterate 3
    obtain ⟨b, _, hb, ⟨c, _, hc, rfl, rfl⟩, rfl⟩ := hmore
    exact ⟨_, by omega, (scalarBytes_three (by omega) (by omega) (by omega) (by omega)).symm⟩
  all_goals
    obtain ⟨b, _, hb, ⟨c, _, hc, ⟨d, _, hd, rfl, rfl⟩, rfl⟩, rfl⟩ := hmore
    exact ⟨_, by omega, (scalarBytes_four (by omega) (by omega) (by omega) (by omega)
      (by omega)).symm⟩

/-- The range of the second byte of a character of three bytes, which depends on the first. -/
theorem exists_second_of_three {first b : UInt8} (hfirst : 0xE0 ≤ first.toNat ∧ first.toNat < 0xF0)
    (hb : 0x80 ≤ b.toNat ∧ b.toNat < 0xC0) (hlow : first.toNat = 0xE0 → 0xA0 ≤ b.toNat)
    (hhigh : first.toNat = 0xED → b.toNat < 0xA0) :
    ∃ r, owedAfter? first = some [r, .continuation] ∧ r.contains b := by
  simp only [owedAfter?_eq_some_iff, ByteRange.contains_iff]
  by_cases h0 : first.toNat = 0xE0
  · exact ⟨⟨0xA0, 0xBF⟩, .inr (.inr (.inl ⟨h0, rfl⟩)), hlow h0, Nat.le_of_lt_succ hb.2⟩
  by_cases hD : first.toNat = 0xED
  · exact ⟨⟨0x80, 0x9F⟩, .inr (.inr (.inr (.inl ⟨hD, rfl⟩))), hb.1, Nat.le_of_lt_succ (hhigh hD)⟩
  · exact ⟨.continuation, .inr (.inr (.inr (.inr (.inl ⟨by omega, rfl⟩)))), hb.1,
      Nat.le_of_lt_succ hb.2⟩

theorem exists_second_of_four {first b : UInt8} (hfirst : 0xF0 ≤ first.toNat ∧ first.toNat < 0xF5)
    (hb : 0x80 ≤ b.toNat ∧ b.toNat < 0xC0) (hlow : first.toNat = 0xF0 → 0x90 ≤ b.toNat)
    (hhigh : first.toNat = 0xF4 → b.toNat < 0x90) :
    ∃ r, owedAfter? first = some [r, .continuation, .continuation] ∧ r.contains b := by
  simp only [owedAfter?_eq_some_iff, ByteRange.contains_iff]
  by_cases h0 : first.toNat = 0xF0
  · exact ⟨⟨0x90, 0xBF⟩, .inr (.inr (.inr (.inr (.inr (.inl ⟨h0, rfl⟩))))), hlow h0,
      Nat.le_of_lt_succ hb.2⟩
  by_cases h4 : first.toNat = 0xF4
  · exact ⟨⟨0x80, 0x8F⟩, .inr (.inr (.inr (.inr (.inr (.inr (.inr ⟨h4, rfl⟩)))))), hb.1,
      Nat.le_of_lt_succ (hhigh h4)⟩
  · exact ⟨.continuation, .inr (.inr (.inr (.inr (.inr (.inr (.inl ⟨by omega, rfl⟩)))))), hb.1,
      Nat.le_of_lt_succ hb.2⟩

theorem contains_continuation {b : UInt8} (h : 0x80 ≤ b.toNat ∧ b.toNat < 0xC0) :
    ByteRange.continuation.contains b :=
  ByteRange.contains_iff.2 ⟨h.1, Nat.le_of_lt_succ h.2⟩

theorem completes_of_scalar {n : Nat} {first : UInt8} {more : Bytes} (hn : n.isValidChar)
    (h : (first :: more).map UInt8.toNat = scalarBytes n) : Completes first more := by
  unfold Nat.isValidChar at hn
  unfold scalarBytes at h
  rw [List.map_cons] at h
  split_ifs at h with h1 h2 h3
  · simp only [List.cons.injEq, List.map_eq_nil_iff] at h
    obtain ⟨hfirst, rfl⟩ := h
    exact ⟨[], owedAfter?_eq_some_iff.2 (.inl ⟨by omega, rfl⟩), .nil⟩
  · simp only [List.cons.injEq, List.map_eq_cons_iff, List.map_eq_nil_iff] at h
    obtain ⟨hfirst, b, _, rfl, hb, rfl⟩ := h
    exact ⟨[.continuation], owedAfter?_eq_some_iff.2 (.inr (.inl ⟨by omega, rfl⟩)),
      .cons (contains_continuation (by omega)) .nil⟩
  · simp only [List.cons.injEq, List.map_eq_cons_iff, List.map_eq_nil_iff] at h
    obtain ⟨hfirst, b, _, rfl, hb, c, _, rfl, hc, rfl⟩ := h
    obtain ⟨r, howed, hr⟩ := @exists_second_of_three first b (by omega) (by omega) (by omega)
      (by omega)
    exact ⟨_, howed, .cons hr (.cons (contains_continuation (by omega)) .nil)⟩
  · simp only [List.cons.injEq, List.map_eq_cons_iff, List.map_eq_nil_iff] at h
    obtain ⟨hfirst, b, _, rfl, hb, c, _, rfl, hc, d, _, rfl, hd, rfl⟩ := h
    obtain ⟨r, howed, hr⟩ := @exists_second_of_four first b (by omega) (by omega) (by omega)
      (by omega)
    exact ⟨_, howed, .cons hr (.cons (contains_continuation (by omega))
      (.cons (contains_continuation (by omega)) .nil))⟩

/-- A character is complete exactly when its bytes are the UTF-8 of one. -/
theorem completes_iff {first : UInt8} {more : Bytes} :
    Completes first more ↔ ∃ c : Char, String.utf8EncodeChar c = first :: more := by
  constructor
  · intro h
    obtain ⟨n, hn, hbytes⟩ := h.exists_scalar
    exact exists_character hn hbytes
  · rintro ⟨c, hc⟩
    apply completes_of_scalar (n := c.toNat) c.valid
    rw [← hc, toNat_utf8EncodeChar]

theorem fault?_append {c : Char} {rest : Bytes} :
    fault? (String.utf8EncodeChar c ++ rest) = none ↔ fault? rest = none := by
  obtain ⟨first, more, hc⟩ := List.exists_cons_of_ne_nil (String.utf8EncodeChar_ne_nil (c := c))
  have hcompletes := completes_iff.2 ⟨c, hc⟩
  rw [hc, List.cons_append, fault?_cons_eq_none_iff]
  constructor
  · rintro ⟨more', rest', heq, hmore', hrest⟩
    have hlen : more.length = more'.length := by
      obtain ⟨owed, howed, h⟩ := hcompletes
      obtain ⟨owed', howed', h'⟩ := hmore'
      rw [howed, Option.some.injEq] at howed'
      subst howed'
      exact h.length_eq.symm.trans h'.length_eq
    rw [(List.append_inj heq hlen).2]
    exact hrest
  · intro h
    exact ⟨more, rest, rfl, hcompletes, h⟩

/-- There is no fault exactly in the texts that are the UTF-8 of some characters. -/
theorem fault?_eq_none_iff {text : Bytes} : fault? text = none ↔ IsText text := by
  constructor
  · intro h
    induction hn : text.length using Nat.strongRecOn generalizing text with
    | ind n ih =>
      cases text with
      | nil => exact ⟨[], rfl⟩
      | cons b rest =>
        obtain ⟨more, rest', rfl, hmore, hrest⟩ := fault?_cons_eq_none_iff.1 h
        obtain ⟨c, hc⟩ := completes_iff.1 hmore
        simp only [List.length_cons, List.length_append] at hn
        obtain ⟨characters, rfl⟩ := ih rest'.length (by omega) hrest rfl
        exact ⟨c :: characters, by rw [List.flatMap_cons, hc, List.cons_append]⟩
  · rintro ⟨characters, rfl⟩
    induction characters with
    | nil => rfl
    | cons c characters ih => rwa [List.flatMap_cons, fault?_append]

end TerminalCaps.Bytes.Utf8

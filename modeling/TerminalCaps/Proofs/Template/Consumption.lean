import Mathlib.Data.List.TakeWhile
import TerminalCaps.Proofs.Template.Printing

/-!
What the readers of escapes use up. An escape uses up bytes at the front of those given, looks at one
more at most, and stands for what the bytes used up name.
-/
namespace TerminalCaps.Template

section Letters

variable {b : UInt8}

theorem eq_toUInt8_of_ofUInt8 {c : Char} (h : Char.ofUInt8 b = c) : b = c.toUInt8 := by
  rw [← h]
  exact b.toUInt8_toUInt32.symm

theorem Conversion.eq_letter {conversion : Conversion} (h : ofByte? b = some conversion) :
    b = conversion.letter.toUInt8 := by
  unfold ofByte? at h
  split at h <;> cases h <;> exact eq_toUInt8_of_ofUInt8 ‹_›

theorem BinaryOp.eq_letter {op : BinaryOp} (h : ofByte? b = some op) : b = op.letter.toUInt8 := by
  unfold ofByte? at h
  split at h <;> cases h <;> exact eq_toUInt8_of_ofUInt8 ‹_›

theorem UnaryOp.eq_letter {op : UnaryOp} (h : ofByte? b = some op) : b = op.letter.toUInt8 := by
  unfold ofByte? at h
  split at h <;> cases h <;> exact eq_toUInt8_of_ofUInt8 ‹_›

theorem eq_ofNat_of_letterIndex? {first : Char} {letter : Fin 26}
    (h : letterIndex? first b = some letter) : b = UInt8.ofNat (first.toNat + letter) := by
  unfold letterIndex? at h
  split at h
  · next hrange =>
    cases h
    rw [Nat.add_sub_cancel' hrange.1, UInt8.ofNat_toNat]
  · cases h

theorem Variable.eq_letter {v : Variable} (h : ofByte? b = some v) : b = v.letter := by
  unfold ofByte? at h
  cases hstatic : letterIndex? 'A' b with
  | some letter =>
    rw [hstatic] at h
    cases h
    exact eq_ofNat_of_letterIndex? hstatic
  | none =>
    cases hdynamic : letterIndex? 'a' b with
    | none => simp [hstatic, hdynamic] at h
    | some letter =>
      rw [hstatic, hdynamic] at h
      cases h
      exact eq_ofNat_of_letterIndex? hdynamic

end Letters

section Readers

variable {f : Bytes → Reading} {bytes rest : Bytes} {b : UInt8}
  {Q : Bytes → Instruction → Prop} {found : Option Instruction}

/-- A reader uses up some bytes in front of any others that begin as `rest` does: of what stands behind
them it looks at one byte at most. -/
def UsesUp (f : Bytes → Reading) (consumed : Bytes) (found : Option Instruction) (rest : Bytes) :
    Prop :=
  ∀ other : Bytes, other.head? = rest.head? → f (consumed ++ other) = (found, other)

/-- What a reader makes of some bytes: it uses up the first of them, and what it finds there has a
property that speaks of them. -/
def ReadsAt (Q : Bytes → Instruction → Prop) (f : Bytes → Reading) (bytes : Bytes) : Prop :=
  ∃ consumed, bytes = consumed ++ (f bytes).2 ∧ UsesUp f consumed (f bytes).1 (f bytes).2 ∧
    ∀ instruction ∈ (f bytes).1, Q consumed instruction

theorem readsAt_nil (h : f [] = (none, [])) : ReadsAt Q f [] := by
  refine ⟨[], by rw [h]; rfl, ?_, by rw [h]; exact fun i hi => absurd hi (Option.not_mem_none i)⟩
  rw [h]
  intro other hother
  rw [List.head?_eq_none_iff.1 hother]
  exact h

theorem readsAt_done (h : ∀ rest, f rest = (found, rest)) (hfound : ∀ i ∈ found, Q [] i) :
    ReadsAt Q f bytes := by
  refine ⟨[], by rw [h]; rfl, ?_, by rwa [h]⟩
  rw [h]
  exact fun other _ => h other

theorem readsAt_cons
    (h : ReadsAt (fun consumed => Q (b :: consumed)) (fun rest => f (b :: rest)) rest) :
    ReadsAt Q f (b :: rest) := by
  obtain ⟨consumed, hrest, huses, hfound⟩ := h
  exact ⟨b :: consumed, congrArg (b :: ·) hrest, huses, hfound⟩

/-- Readers that agree on what begins with a byte. -/
theorem readsAt_congr {g : Bytes → Reading} (hfg : ∀ rest, f (b :: rest) = g (b :: rest))
    (h : ReadsAt Q g (b :: rest)) : ReadsAt Q f (b :: rest) := by
  obtain ⟨consumed, hbytes, huses, hfound⟩ := h
  refine ⟨consumed, by rwa [hfg], ?_, by rwa [hfg]⟩
  rw [hfg]
  intro other hother
  -- If nothing is used up, it is the other bytes that begin with `b`.
  have hhead : (consumed ++ other).head? = some b := by
    rw [List.head?_append, hother, ← List.head?_append, ← hbytes, List.head?_cons]
  obtain ⟨tail, htail⟩ := List.head?_eq_some_iff.1 hhead
  rw [htail, hfg, ← htail, huses other hother]

/-- A byte that is skipped or not: what is left tells the first byte of all. -/
theorem exists_skipped (expected : Char) (bytes : Bytes) : ∃ used,
    bytes = used ++ skip expected bytes ∧
      ∀ other : Bytes, other.head? = (skip expected bytes).head? →
        skip expected (used ++ other) = other ∧ (used ++ other).head? = bytes.head? := by
  cases bytes with
  | nil =>
    refine ⟨[], rfl, ?_⟩
    intro other hother
    rw [List.head?_eq_none_iff.1 hother]
    exact ⟨rfl, rfl⟩
  | cons b rest =>
    by_cases hb : b = expected.toUInt8
    · refine ⟨[b], by simp [skip, hb], ?_⟩
      exact fun other _ => ⟨by simp [skip, hb], rfl⟩
    · refine ⟨[], by simp [skip, hb], ?_⟩
      simp only [skip, if_neg hb, List.nil_append]
      intro other hother
      refine ⟨?_, hother⟩
      cases other with
      | nil => rfl
      | cons c other =>
        cases hother
        exact if_neg hb

theorem readsAt_skip {expected : Char} (h : ∀ rest, f rest = (found, skip expected rest))
    (hfound : ∀ used, ∀ i ∈ found, Q used i) : ReadsAt Q f bytes := by
  obtain ⟨used, hbytes, hskip⟩ := exists_skipped expected bytes
  refine ⟨used, by rwa [h], ?_, by rw [h]; exact hfound used⟩
  rw [h]
  intro other hother
  rw [h, (hskip other hother).1]

theorem readsAt_readParameter
    (hQ : ∀ index : Fin 9, Q [UInt8.ofNat ('1'.toNat + index)] (.operation (.pushParameter index)))
    (hzero : ∀ b, Q [b] (.operation (.pushNumber 0))) : ReadsAt Q readParameter bytes := by
  cases bytes with
  | nil => exact readsAt_nil rfl
  | cons b rest =>
    apply readsAt_cons
    by_cases h : '1'.toNat ≤ b.toNat ∧ b.toNat ≤ '9'.toNat
    · refine readsAt_done (fun rest => dif_pos h) ?_
      rintro i ⟨⟩
      have hletter : UInt8.ofNat ('1'.toNat + (b.toNat - '1'.toNat)) = b := by
        rw [Nat.add_sub_cancel' h.1, UInt8.ofNat_toNat]
      have hindex := hQ ⟨b.toNat - '1'.toNat, by simp only [Char.reduceToNat] at h ⊢; omega⟩
      rwa [hletter] at hindex
    · refine readsAt_done (fun rest => dif_neg h) ?_
      rintro i ⟨⟩
      exact hzero b

theorem readsAt_readVariable {operation : Variable → Operation}
    (hQ : ∀ v : Variable, Q [v.letter] (.operation (operation v))) :
    ReadsAt Q (readVariable operation) bytes := by
  cases bytes with
  | nil => exact readsAt_nil rfl
  | cons b rest =>
    apply readsAt_cons
    refine readsAt_done (fun rest => rfl) ?_
    intro i hi
    obtain ⟨v, hv, rfl⟩ := Option.map_eq_some_iff.1 hi
    rw [Variable.eq_letter hv]
    exact hQ v

theorem readsAt_readCharacter
    (hQ : ∀ code used, Q (code :: used) (.operation (.pushCharacter code))) :
    ReadsAt Q readCharacter bytes := by
  cases bytes with
  | nil => exact readsAt_nil rfl
  | cons b rest =>
    apply readsAt_cons
    refine readsAt_skip (fun rest => rfl) ?_
    rintro used i ⟨⟩
    exact hQ b used

/-- The conversion or a byte out of place ends a field, and any other byte goes on with it. -/
theorem readsAt_readField (part : FieldPart) (spec : FieldSpec)
    (hQ : ∀ (used : Bytes) (conversion : Conversion) (spec : FieldSpec),
      Q (used ++ [conversion.letter.toUInt8]) (.operation (.field conversion spec))) :
    ReadsAt Q (readField part spec) bytes := by
  induction bytes generalizing part spec Q with
  | nil => exact readsAt_nil rfl
  | cons b rest ih =>
    apply readsAt_cons
    cases hconversion : Conversion.ofByte? b with
    | some conversion =>
      have hread : ∀ rest, readField part spec (b :: rest) =
          (some (.operation (.field conversion spec)), rest) := by
        intro rest
        rw [readField, hconversion]
      refine readsAt_done hread ?_
      rintro i ⟨⟩
      rw [Conversion.eq_letter hconversion]
      exact hQ [] conversion spec
    | none =>
      cases hextend : spec.extend? part b with
      | none =>
        have hread : ∀ rest, readField part spec (b :: rest) = (none, rest) := by
          intro rest
          rw [readField, hconversion, hextend]
        exact readsAt_done hread fun i hi => absurd hi (Option.not_mem_none i)
      | some next =>
        have hread : (fun rest => readField part spec (b :: rest)) = readField next.1 next.2 := by
          funext rest
          exact readField_extend hconversion hextend
        rw [hread]
        exact ih _ _ fun used => hQ (b :: used)

theorem readsAt_readNumber
    (hQ : ∀ consumed value, 0 ≤ value → Q consumed (.operation (.pushNumber value))) :
    ReadsAt Q readNumber bytes := by
  obtain ⟨used, hused, hskip⟩ := exists_skipped '\x7d' (bytes.dropWhile Bytes.isDigit)
  have hdigits : ∀ b ∈ bytes.takeWhile Bytes.isDigit, Bytes.isDigit b :=
    fun b hb => List.mem_takeWhile_imp hb
  refine ⟨bytes.takeWhile Bytes.isDigit ++ used, ?_, ?_, ?_⟩
  · rw [List.append_assoc]
    exact (hused ▸ List.takeWhile_append_dropWhile).symm
  · intro other hother
    obtain ⟨hrest, hhead⟩ := hskip other hother
    -- Without the brace, the byte after the digits is the one that the reader looks at.
    have hnone : ∀ b ∈ (used ++ other).head?, ¬ Bytes.isDigit b := by
      rw [hhead]
      exact Bytes.not_of_mem_head?_dropWhile
    obtain ⟨htake, hdrop⟩ := Bytes.span_append hdigits hnone
    rw [List.append_assoc, readNumber, htake, hdrop, hrest]
    rfl
  · rintro i ⟨⟩
    apply hQ
    have hle := Bytes.saturatedValue_le maxNumber (bytes.takeWhile Bytes.isDigit)
    rw [Int32.le_iff_toInt_le, Int32.toInt_ofNat_of_lt (Nat.lt_succ_of_le hle)]
    exact Int.natCast_nonneg _

end Readers

/-- What an escape can stand for by the bytes after its percent sign: never a text, a negative number
or a jump that has a target. -/
def Instruction.FoundIn (consumed : Bytes) : Instruction → Prop
  | .operation (.literal _) => False
  | .operation (.pushNumber value) => 0 ≤ value
  | .operation (.pushCharacter code) => ['\''.toUInt8, code] <+: consumed
  | .operation (.field conversion _) => [conversion.letter.toUInt8] <:+ consumed
  | .thenJump target => consumed = ['t'.toUInt8] ∧ target = none
  | .elseJump target => consumed = ['e'.toUInt8] ∧ target = none
  | instruction => consumed = instruction.escape

section SingleBytes

variable {b : UInt8} {i : Instruction}

theorem foundIn_singleByteEscape? (h : i ∈ singleByteEscape? b) : i.FoundIn [b] := by
  unfold singleByteEscape? at h
  split at h
  case h_9 =>
    cases hconversion : Conversion.ofByte? b with
    | some conversion =>
      rw [hconversion] at h
      cases h
      rw [Conversion.eq_letter hconversion]
      exact List.suffix_refl _
    | none =>
      cases hbinary : BinaryOp.ofByte? b with
      | some op =>
        rw [hconversion, hbinary] at h
        cases h
        rw [BinaryOp.eq_letter hbinary]
        rfl
      | none =>
        rw [hconversion, hbinary] at h
        obtain ⟨op, hunary, rfl⟩ := Option.map_eq_some_iff.1 h
        rw [UnaryOp.eq_letter hunary]
        rfl
  all_goals
    next hletter =>
      cases h
      rw [eq_toUInt8_of_ofUInt8 hletter]
      simp [Instruction.FoundIn, Instruction.escape, Operation.escape]

/-- The bytes that say only how those behind them are read. -/
def ChoosesReader (b : UInt8) : Prop :=
  b ∈ ['p', 'P', 'g', '\'', '\x7b', ':'].map Char.toUInt8

/-- The bytes that begin the layout of a field and are a part of it. -/
def BeginsField (b : UInt8) : Prop :=
  b ∈ ['#', ' ', '.'].map Char.toUInt8 ∨ Bytes.isDigit b

theorem readEscape_field (hb : BeginsField b) (rest : Bytes) :
    readEscape (b :: rest) = readField .flags { } (b :: rest) := by
  rcases hb with hsign | hdigit
  · simp only [List.map_cons, List.map_nil, List.mem_cons, List.not_mem_nil, or_false] at hsign
    rcases hsign with rfl | rfl | rfl <;> rfl
  · obtain ⟨d, hd, rfl⟩ := Bytes.exists_digitByte hdigit
    interval_cases d <;> rfl

theorem readEscape_singleByte (hb : ¬ ChoosesReader b) (hfield : ¬ BeginsField b) (rest : Bytes) :
    readEscape (b :: rest) = (singleByteEscape? b, rest) := by
  have hletter : ∀ c ∈ ['p', 'P', 'g', '\'', '\x7b', ':'], Char.ofUInt8 b ≠ c :=
    fun c hc hbc => hb (List.mem_map.2 ⟨c, hc, (eq_toUInt8_of_ofUInt8 hbc).symm⟩)
  have hsign : ∀ c ∈ ['#', ' ', '.'], Char.ofUInt8 b ≠ c :=
    fun c hc hbc => hfield (.inl (List.mem_map.2 ⟨c, hc, (eq_toUInt8_of_ofUInt8 hbc).symm⟩))
  rw [readEscape]
  split
  case h_7 h => exact absurd h (hsign _ (by simp))
  case h_8 h => exact absurd h (hsign _ (by simp))
  case h_9 h => exact absurd h (hsign _ (by simp))
  case h_10 => exact if_neg fun hdigit => hfield (.inr hdigit)
  all_goals
    next h => exact absurd h (hletter _ (by simp))

end SingleBytes

/-- An escape uses up the bytes before those that are left, and looks at one more at most. -/
theorem readsAt_readEscape (bytes : Bytes) :
    ReadsAt (fun consumed i => i.FoundIn consumed) readEscape bytes := by
  cases bytes with
  | nil => exact readsAt_nil rfl
  | cons b rest =>
    by_cases hb : ChoosesReader b
    · apply readsAt_cons
      simp only [ChoosesReader, List.map_cons, List.map_nil, List.mem_cons, List.not_mem_nil,
        or_false] at hb
      rcases hb with rfl | rfl | rfl | rfl | rfl | rfl
      · exact readsAt_readParameter (fun index => rfl) fun b => Int32.le_refl 0
      · exact readsAt_readVariable fun v => rfl
      · exact readsAt_readVariable fun v => rfl
      · exact readsAt_readCharacter fun code used => ⟨used, rfl⟩
      · exact readsAt_readNumber fun consumed value hvalue => hvalue
      · exact readsAt_readField _ _ fun used conversion spec => ⟨_ :: used, rfl⟩
    · by_cases hfield : BeginsField b
      · apply readsAt_congr (readEscape_field hfield)
        exact readsAt_readField _ _ fun used conversion spec => ⟨used, rfl⟩
      · apply readsAt_cons
        apply readsAt_done (readEscape_singleByte hb hfield)
        exact fun i hi => foundIn_singleByteEscape? hi

end TerminalCaps.Template

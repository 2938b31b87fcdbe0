import TerminalCaps.Template.Program

/-!
The scan of a template, turn by turn: each turn reads the text before the next escape, and the
escape. Every turn but the last uses up bytes at the front of what is left, so the scan ends.
-/
namespace TerminalCaps.Template

/-- What a turn of the scan reads and the bytes that it leaves. The last turn finds no escape and
leaves nothing to go on with. -/
def scanTurn (bytes : Bytes) : List Instruction × Option Bytes :=
  let text := bytes.takeWhile (· != '%'.toUInt8)
  let literal := if text = [] then [] else [Instruction.operation (.literal text)]
  match bytes.dropWhile (· != '%'.toUInt8) with
  | [] => (literal, none)
  | _ :: rest => (literal ++ (readEscape rest).1.toList, some (readEscape rest).2)

/-- A whole scan, with no bound on its turns: the bytes left before each turn, and all instructions
that were read. -/
inductive Scans : Bytes → List Bytes → List Instruction → Prop
  | last {bytes : Bytes} {code : List Instruction} (h : scanTurn bytes = (code, none)) :
      Scans bytes [bytes] code
  | turn {bytes rest : Bytes} {code later : List Instruction} {lefts : List Bytes}
      (h : scanTurn bytes = (code, some rest)) (hrest : Scans rest lefts later) :
      Scans bytes (bytes :: lefts) (code ++ later)

variable {bytes rest : Bytes} {code : List Instruction} {lefts : List Bytes}

theorem eq_percent_of_dropWhile {b : UInt8}
    (h : bytes.dropWhile (· != '%'.toUInt8) = b :: rest) : b = '%'.toUInt8 := by
  have hnot : ∀ c ∈ (b :: rest).head?, ¬ (c != '%'.toUInt8) := h ▸ Bytes.not_of_mem_head?_dropWhile
  simpa using hnot b rfl

/-- A turn that is not the last one uses up at least one byte, and only bytes at the front. -/
theorem scanTurn_suffix (h : scanTurn bytes = (code, some rest)) :
    rest <:+ bytes ∧ rest.length < bytes.length := by
  unfold scanTurn at h
  dsimp only at h
  split at h
  · simp at h
  · next b later hdrop =>
    obtain ⟨-, rfl⟩ : _ ∧ (readEscape later).2 = rest := by simpa using h
    have hescape := readEscape_suffix later
    have hlater : b :: later <:+ bytes := hdrop ▸ List.dropWhile_suffix _
    refine ⟨hescape.trans ((List.suffix_cons b later).trans hlater), ?_⟩
    calc (readEscape later).2.length ≤ later.length := hescape.length_le
      _ < (b :: later).length := Nat.lt_succ_self _
      _ ≤ bytes.length := hlater.length_le

/-- A turn reads the first instructions of a template. -/
theorem readInstructions_eq_append (bytes : Bytes) : readInstructions bytes =
    (scanTurn bytes).1 ++ ((scanTurn bytes).2.map readInstructions).getD [] := by
  cases bytes with
  | nil => simp [readInstructions, scanTurn]
  | cons b rest =>
    by_cases hb : b = '%'.toUInt8
    · subst hb
      simp [readInstructions, scanTurn]
    · have hkeep : (b != '%'.toUInt8) = true := by simpa using hb
      rw [readInstructions, if_neg hb]
      unfold scanTurn
      simp only [List.takeWhile_cons, List.dropWhile_cons, hkeep, if_true]
      cases hdrop : rest.dropWhile (· != '%'.toUInt8) with
      | nil => simp [readInstructions]
      | cons c later =>
        rw [eq_percent_of_dropWhile hdrop, readInstructions, if_pos rfl]
        simp

theorem exists_scans (bytes : Bytes) : ∃ lefts, Scans bytes lefts (readInstructions bytes) := by
  induction hlength : bytes.length using Nat.strongRecOn generalizing bytes with
  | ind length ih =>
    subst hlength
    rw [readInstructions_eq_append]
    cases hturn : scanTurn bytes with
    | mk read left =>
      cases left with
      | none => exact ⟨[bytes], by simpa using Scans.last hturn⟩
      | some rest =>
        obtain ⟨lefts, hlefts⟩ := ih rest.length (scanTurn_suffix hturn).2 rest rfl
        exact ⟨bytes :: lefts, Scans.turn hturn hlefts⟩

theorem Scans.unique {others : List Bytes} {other : List Instruction} (h : Scans bytes lefts code)
    (hother : Scans bytes others other) : others = lefts ∧ other = code := by
  induction h generalizing others other with
  | last h => cases hother <;> simp_all
  | turn h _ ih =>
    cases hother with
    | last h' => simp_all
    | turn h' hrest =>
      obtain ⟨rfl, rfl⟩ : _ ∧ _ := by simpa [h] using h'
      obtain ⟨rfl, rfl⟩ := ih hrest
      simp

/-- There is one scan of a template, and it reads the instructions of the template. -/
theorem exists_scan (bytes : Bytes) : ∃ lefts, ∀ lefts' code,
    Scans bytes lefts' code ↔ lefts' = lefts ∧ code = readInstructions bytes := by
  obtain ⟨lefts, hlefts⟩ := exists_scans bytes
  refine ⟨lefts, fun lefts' code => ⟨hlefts.unique, ?_⟩⟩
  intro h
  obtain ⟨rfl, rfl⟩ := h
  exact hlefts

/-- What is left is always the end of the template, shorter after every turn. -/
theorem Scans.forward (h : Scans bytes lefts code) :
    (∀ left ∈ lefts, left <:+ bytes) ∧ lefts.Pairwise (fun a b => b.length < a.length) ∧
      lefts.length ≤ bytes.length + 1 := by
  induction h with
  | last h => simp
  | @turn bytes rest code later lefts h hrest ih =>
    obtain ⟨hsuffix, hpairwise, hcount⟩ := ih
    obtain ⟨hrest, hlt⟩ := scanTurn_suffix h
    refine ⟨?_, ?_, ?_⟩
    · refine List.forall_mem_cons.2 ⟨List.suffix_refl _, ?_⟩
      exact fun left hleft => (hsuffix left hleft).trans hrest
    · refine List.pairwise_cons.2 ⟨?_, hpairwise⟩
      exact fun left hleft => Nat.lt_of_le_of_lt (hsuffix left hleft).length_le hlt
    · simp only [List.length_cons]
      omega

/-- An instruction takes up at least one byte of its template. -/
theorem length_readInstructions_le (template : Bytes) :
    (readInstructions template).length ≤ template.length := by
  induction template using readInstructions.induct with
  | case1 => simp [readInstructions]
  | case2 rest reading ih =>
    have hone : (readEscape rest).1.toList.length ≤ 1 := by
      cases (readEscape rest).1 <;> simp
    have hrest : (readEscape rest).2.length ≤ rest.length := (readEscape_suffix rest).length_le
    rw [readInstructions, if_pos rfl]
    simp only [List.length_append, List.length_cons]
    change (readInstructions (readEscape rest).2).length ≤ (readEscape rest).2.length at ih
    omega
  | case3 b rest hb ih =>
    have hrest := (List.dropWhile_suffix (l := rest) (· != '%'.toUInt8)).length_le
    rw [readInstructions, if_neg hb]
    simp only [List.length_cons]
    omega

end TerminalCaps.Template

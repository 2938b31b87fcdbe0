import TerminalCaps.Proofs.Template.Jumps

/-!
The spans of a template: runs of text, and escapes with the bytes that they use up. A template is
divided into spans in one way, and its program has their instructions in their order.
-/
namespace TerminalCaps.Template

/-- A run of text, or an escape with the bytes that it uses up after its percent sign and what it
stands for. -/
inductive Span where
  | text (run : Bytes)
  | escape (consumed : Bytes) (found : Option Instruction)
  deriving DecidableEq, Repr

namespace Span

def bytes : Span → Bytes
  | .text run => run
  | .escape consumed _ => '%'.toUInt8 :: consumed

def instruction? : Span → Option Instruction
  | .text run => some (.operation (.literal run))
  | .escape _ found => found

def text? : Span → Option Bytes
  | .text run => some run
  | .escape .. => none

/-- What makes a span one in front of the given bytes: a run of text is not empty and ends at a percent
sign or at the end, and an escape uses up its bytes. -/
def Fits : Span → Bytes → Prop
  | .text run, rest => run ≠ [] ∧ '%'.toUInt8 ∉ run ∧ ∀ b ∈ rest.head?, b = '%'.toUInt8
  | .escape consumed found, rest => UsesUp readEscape consumed found rest

/-- An escape stands only for what its bytes can mean. -/
def Sound : Span → Prop
  | .text _ => True
  | .escape consumed found => ∀ instruction ∈ found, instruction.FoundIn consumed

end Span

/-- Every span is one in front of those behind it. -/
def Fitting : List Span → Prop
  | [] => True
  | span :: spans => span.Fits (spans.flatMap Span.bytes) ∧ Fitting spans

/-- A template is made of spans, one after another. -/
structure Divides (spans : List Span) (template : Bytes) : Prop where
  flatMap_bytes : spans.flatMap Span.bytes = template
  fitting : Fitting spans

section Existence

theorem Span.fits_text {b : UInt8} (hb : b ≠ '%'.toUInt8) (rest : Bytes) :
    Fits (.text (b :: rest.takeWhile (· != '%'.toUInt8))) (rest.dropWhile (· != '%'.toUInt8)) := by
  refine ⟨List.cons_ne_nil _ _, ?_, ?_⟩
  · rw [List.mem_cons, not_or]
    refine ⟨Ne.symm hb, fun hmem => ?_⟩
    have hkept := List.all_takeWhile (p := (· != '%'.toUInt8)) (l := rest)
    simpa using List.all_eq_true.1 hkept _ hmem
  · intro c hc
    simpa using Bytes.not_of_mem_head?_dropWhile c hc

/-- The spans that the scan of a template finds, in the order of its instructions. -/
theorem exists_spans (template : Bytes) : ∃ spans, Divides spans template ∧
    (∀ span ∈ spans, span.Sound) ∧
    readInstructions template = spans.filterMap Span.instruction? := by
  induction template using readInstructions.induct with
  | case1 =>
    refine ⟨[], ⟨rfl, trivial⟩, List.forall_mem_nil _, ?_⟩
    rw [readInstructions]
    rfl
  | case2 rest reading ih =>
    obtain ⟨spans, hdivides, hsound, hread⟩ := ih
    obtain ⟨consumed, hrest, huses, hfound⟩ := readsAt_readEscape rest
    refine ⟨.escape consumed reading.1 :: spans, ⟨?_, ?_, hdivides.fitting⟩,
      List.forall_mem_cons.2 ⟨hfound, hsound⟩, ?_⟩
    · rw [List.flatMap_cons, hdivides.flatMap_bytes]
      exact congrArg ('%'.toUInt8 :: ·) hrest.symm
    · rw [hdivides.flatMap_bytes]
      exact huses
    · rw [readInstructions_percent, hread, List.filterMap_eq_flatMap_toList,
        List.filterMap_eq_flatMap_toList, List.flatMap_cons]
      rfl
  | case3 b rest hb ih =>
    obtain ⟨spans, hdivides, hsound, hread⟩ := ih
    refine ⟨.text (b :: rest.takeWhile (· != '%'.toUInt8)) :: spans, ⟨?_, ?_, hdivides.fitting⟩,
      List.forall_mem_cons.2 ⟨trivial, hsound⟩, ?_⟩
    · rw [List.flatMap_cons, hdivides.flatMap_bytes]
      exact congrArg (b :: ·) List.takeWhile_append_dropWhile
    · rw [hdivides.flatMap_bytes]
      exact Span.fits_text hb rest
    · rw [readInstructions, if_neg hb, hread]
      rfl

end Existence

section Uniqueness

variable {a b : Span} {rest rest' : Bytes}

theorem Span.Fits.bytes_ne_nil (h : a.Fits rest) : a.bytes ≠ [] := by
  cases a with
  | text run => exact h.1
  | escape consumed found => exact List.cons_ne_nil _ _

theorem Span.Fits.text_ne_escape {run consumed : Bytes} {found : Option Instruction}
    (h : Fits (.text run) rest) :
    (text run).bytes ++ rest ≠ (escape consumed found).bytes ++ rest' := by
  obtain ⟨hne, hrun, -⟩ := h
  obtain ⟨b, run, rfl⟩ := List.exists_cons_of_ne_nil hne
  intro heq
  have hb : b = '%'.toUInt8 := List.head_eq_of_cons_eq heq
  exact hrun (hb ▸ List.mem_cons_self)

/-- The bytes tell the span that they begin with. -/
theorem Span.Fits.unique (ha : a.Fits rest) (hb : b.Fits rest')
    (h : a.bytes ++ rest = b.bytes ++ rest') : a = b ∧ rest = rest' := by
  cases a with
  | text run =>
    cases b with
    | text run' =>
      obtain ⟨htake, hdrop⟩ := span_text ha.2.1 ha.2.2
      obtain ⟨htake', hdrop'⟩ := span_text hb.2.1 hb.2.2
      simp only [bytes] at h
      rw [h] at htake hdrop
      exact ⟨congrArg text (htake.symm.trans htake'), hdrop.symm.trans hdrop'⟩
    | escape consumed found => exact absurd h ha.text_ne_escape
  | escape consumed found =>
    cases b with
    | text run => exact absurd h.symm hb.text_ne_escape
    | escape consumed' found' =>
      have hescape : consumed ++ rest = consumed' ++ rest' := List.tail_eq_of_cons_eq h
      have hread : (found, rest) = (found', rest') := by
        rw [← ha rest rfl, ← hb rest' rfl, hescape]
      obtain ⟨rfl, rfl⟩ := Prod.mk.inj hread
      rw [List.append_cancel_right hescape]
      exact ⟨rfl, rfl⟩

theorem Fitting.unique {spans others : List Span} (hspans : Fitting spans) (hothers : Fitting others)
    (h : spans.flatMap Span.bytes = others.flatMap Span.bytes) : spans = others := by
  induction spans generalizing others with
  | nil =>
    cases others with
    | nil => rfl
    | cons b others => simp [hothers.1.bytes_ne_nil] at h
  | cons a spans ih =>
    cases others with
    | nil => simp [hspans.1.bytes_ne_nil] at h
    | cons b others =>
      rw [List.flatMap_cons, List.flatMap_cons] at h
      obtain ⟨rfl, hrest⟩ := hspans.1.unique hothers.1 h
      rw [ih hspans.2 hothers.2 hrest]

end Uniqueness

section Ranges

/-- The text of a literal. -/
def Instruction.literal? : Instruction → Option Bytes
  | .operation (.literal text) => some text
  | _ => none

def Variable.index : Variable → Nat
  | .static letter | .dynamic letter => letter

/-- What the instruction at a place of a program can hold. -/
def Instruction.InRange (size place : Nat) : Instruction → Prop
  | .operation (.pushParameter index) => index.val < 9
  | .operation (.store target) => target.index < 26
  | .operation (.load source) => source.index < 26
  | .operation (.pushNumber value) => 0 ≤ value.toInt ∧ value.toInt ≤ 2147483647
  | .thenJump target => ∀ t ∈ target, place < t ∧ t ≤ size
  | .elseJump target => ∃ t, target = some t ∧ place < t ∧ t ≤ size
  | _ => True

variable {size position : Nat} {code : List Instruction} {levels : List Level}

theorem Instruction.unlinked_link (instruction : Instruction) :
    (instruction.link size position levels).1.unlinked = instruction.unlinked := by
  cases instruction <;> rfl

/-- Linking changes nothing but targets. -/
theorem map_unlinked_link (code : List Instruction) :
    (link code).map Instruction.unlinked = code.map Instruction.unlinked := by
  have hlinkOnto : ∀ size position, (linkOnto size position code []).1.map Instruction.unlinked =
      code.map Instruction.unlinked := by
    intro size position
    induction code generalizing position with
    | nil => rfl
    | cons first rest ih =>
      rw [linkOnto, List.map_cons, List.map_cons, ih, Instruction.unlinked_link]
  rw [link, linkFrom_eq, hlinkOnto]

theorem Unlinked.map_unlinked (h : Unlinked code) : code.map Instruction.unlinked = code := by
  have hsame : ∀ instruction ∈ code, instruction.unlinked = instruction := by
    intro instruction hmem
    have hraw := h instruction hmem
    cases instruction with
    | thenJump target => exact congrArg Instruction.thenJump hraw.symm
    | elseJump target => exact congrArg Instruction.elseJump hraw.symm
    | _ => rfl
  rw [List.map_congr_left hsame, List.map_id']

/-- Every `%e` has a target when it is linked. -/
theorem exists_target_linkOnto {target : Option Nat}
    (h : .elseJump target ∈ (linkOnto size position code levels).1) : ∃ t, target = some t := by
  induction code generalizing position with
  | nil => cases h
  | cons first rest ih =>
    rcases List.mem_cons.1 h with hfirst | hrest
    · cases first with
      | elseJump raw => exact ⟨_, Instruction.elseJump.inj hfirst⟩
      | _ => cases hfirst
    · exact ih hrest

theorem Instruction.literal?_unlinked (instruction : Instruction) :
    instruction.unlinked.literal? = instruction.literal? := by
  cases instruction <;> rfl

theorem Span.Sound.literal? {span : Span} (h : span.Sound) :
    span.instruction?.bind Instruction.literal? = span.text? := by
  cases span with
  | text run => rfl
  | escape consumed found =>
    cases found with
    | none => rfl
    | some instruction =>
      have hfound := h instruction rfl
      cases instruction with
      | operation op =>
        cases op with
        | literal text => exact hfound.elim
        | _ => rfl
      | _ => rfl

theorem Variable.index_lt (v : Variable) : v.index < 26 := by
  cases v with
  | static letter => exact letter.isLt
  | dynamic letter => exact letter.isLt

/-- A linked instruction is in range if the numbers that are pushed are. -/
theorem inRange_of_getElem?_link {place : Nat} {instruction : Instruction} (hraw : Unlinked code)
    (hnumber : ∀ value, .operation (.pushNumber value) ∈ code → 0 ≤ value)
    (hget : (link code)[place]? = some instruction) : instruction.InRange code.length place := by
  have hmem : instruction ∈ link code := List.mem_of_getElem? hget
  have htarget : ∀ t, instruction.target? = some t → place < t ∧ t ≤ code.length :=
    fun t ht => link_places hraw hget ht
  cases instruction with
  | operation op =>
    cases op with
    | pushParameter index => exact index.isLt
    | store target => exact target.index_lt
    | load source => exact source.index_lt
    | pushNumber value =>
      have hread : Instruction.operation (.pushNumber value) ∈ code := by
        rw [← hraw.map_unlinked, ← map_unlinked_link]
        exact List.mem_map_of_mem hmem
      exact ⟨Int32.le_iff_toInt_le.1 (hnumber value hread), value.toInt_le⟩
    | _ => trivial
  | thenJump target => exact htarget
  | elseJump target =>
    rw [link, linkFrom_eq] at hmem
    obtain ⟨t, rfl⟩ := exists_target_linkOnto hmem
    exact ⟨t, rfl, htarget t rfl⟩
  | _ => trivial

end Ranges

/-- A template is made of spans in one way, with no byte between them, and what is compiled from it
comes from them: the instructions of the program are those of the spans, its literals are the runs of
text, and all that they hold is in range. -/
theorem compile_spans (template : Bytes) :
    ∃ spans, (∀ others, Divides others template ↔ others = spans) ∧
      (∀ span ∈ spans, span.Sound) ∧
      (Program.compile template).instructions.toList.map Instruction.unlinked =
        spans.filterMap Span.instruction? ∧
      (Program.compile template).instructions.toList.filterMap Instruction.literal? =
        spans.filterMap Span.text? ∧
      ∀ (place : Nat) (instruction : Instruction),
        (Program.compile template).instructions[place]? = some instruction →
        instruction.InRange (Program.compile template).size place := by
  obtain ⟨spans, hdivides, hsound, hread⟩ := exists_spans template
  have hraw := unlinked_readInstructions template
  have hunlinked : (link (readInstructions template)).map Instruction.unlinked =
      spans.filterMap Span.instruction? := by
    rw [map_unlinked_link, hraw.map_unlinked, hread]
  refine ⟨spans, fun others => ⟨?_, ?_⟩, hsound, hunlinked, ?_, ?_⟩
  · intro hothers
    apply hothers.fitting.unique hdivides.fitting
    rw [hothers.flatMap_bytes, hdivides.flatMap_bytes]
  · rintro rfl
    exact hdivides
  · calc (link (readInstructions template)).filterMap Instruction.literal?
      _ = ((link (readInstructions template)).map Instruction.unlinked).filterMap
          Instruction.literal? := by
        rw [List.filterMap_map]
        exact List.filterMap_congr fun instruction _ => instruction.literal?_unlinked.symm
      _ = spans.filterMap fun span => span.instruction?.bind Instruction.literal? := by
        rw [hunlinked, List.filterMap_filterMap]
      _ = spans.filterMap Span.text? :=
        List.filterMap_congr fun span hspan => (hsound span hspan).literal?
  · intro place instruction hget
    have hsize : (Program.compile template).size = (readInstructions template).length :=
      length_link _
    rw [hsize]
    apply inRange_of_getElem?_link hraw _ (by simpa [Program.compile] using hget)
    intro value hvalue
    rw [hread] at hvalue
    obtain ⟨span, hspan, hinstruction⟩ := List.mem_filterMap.1 hvalue
    cases span with
    | text run => cases hinstruction
    | escape consumed found => exact hsound _ hspan _ hinstruction

end TerminalCaps.Template

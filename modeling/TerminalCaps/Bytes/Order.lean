import TerminalCaps.Bytes

/-! Lists of names in the order of their bytes, byte by byte. -/
namespace TerminalCaps.Bytes

/-- Puts a name into its place in an ordered list, unless it is there already. -/
def insertOrdered (name : Bytes) : List Bytes → List Bytes
  | [] => [name]
  | first :: rest =>
    if name = first then first :: rest
    else if name < first then name :: first :: rest
    else first :: insertOrdered name rest

/-- The names in order, each once. -/
def ordered (names : List Bytes) : List Bytes := names.foldr insertOrdered []

theorem mem_insertOrdered {name other : Bytes} {names : List Bytes} :
    other ∈ insertOrdered name names ↔ other = name ∨ other ∈ names := by
  induction names with
  | nil => simp [insertOrdered]
  | cons first rest ih =>
    rw [insertOrdered]
    split
    · next h => simp [h]
    · split
      · simp
      · simp only [List.mem_cons, ih]
        exact or_left_comm

theorem mem_ordered {name : Bytes} {names : List Bytes} :
    name ∈ ordered names ↔ name ∈ names := by
  induction names with
  | nil => simp [ordered]
  | cons first rest ih =>
    rw [ordered, List.foldr_cons, mem_insertOrdered, List.mem_cons]
    exact or_congr Iff.rfl ih

theorem pairwise_insertOrdered {name : Bytes} {names : List Bytes}
    (h : names.Pairwise (· < ·)) : (insertOrdered name names).Pairwise (· < ·) := by
  induction names with
  | nil => exact List.pairwise_singleton _ _
  | cons first rest ih =>
    obtain ⟨hfirst, hrest⟩ := List.pairwise_cons.1 h
    rw [insertOrdered]
    split
    · exact h
    · next hne =>
      split
      · next hlt =>
        refine List.pairwise_cons.2 ⟨?_, h⟩
        intro other hother
        rcases List.mem_cons.1 hother with rfl | hother
        · exact hlt
        · exact List.lt_trans hlt (hfirst other hother)
      · next hnlt =>
        have hlt : first < name := Std.lt_of_le_of_ne (List.not_lt.1 hnlt) (Ne.symm hne)
        refine List.pairwise_cons.2 ⟨?_, ih hrest⟩
        intro other hother
        rcases mem_insertOrdered.1 hother with rfl | hother
        · exact hlt
        · exact hfirst other hother

theorem pairwise_ordered (names : List Bytes) : (ordered names).Pairwise (· < ·) := by
  induction names with
  | nil => exact List.Pairwise.nil
  | cons first rest ih => exact pairwise_insertOrdered ih

end TerminalCaps.Bytes

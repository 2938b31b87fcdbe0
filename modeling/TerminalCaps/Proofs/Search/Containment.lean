import TerminalCaps.Search.FileTree
import TerminalCaps.Search.Locate
import TerminalCaps.Proofs.Sequencing

/-!
Which files a search can find. The name of a terminal is joined to a directory as a path, so it stays
below that directory only if it is relative and does not go up.
-/
namespace TerminalCaps

namespace Path

/-- A step from one directory to another, or to a file. -/
inductive Component where
  | root
  | current
  | parent
  | name (text : Bytes)
  deriving DecidableEq, Repr

/-- The component between two slashes. Slashes that meet count as one, and a dot changes nothing. -/
def Component.ofPart? (part : Bytes) : Option Component :=
  if part = [] ∨ part = ['.'.toUInt8] then none
  else if part = ['.'.toUInt8, '.'.toUInt8] then some .parent
  else some (.name part)

/-- The component that says where a path begins, which a dot does only in the first place. -/
def origin (p : Path) : List Component :=
  if p.IsAbsolute then [.root]
  else if p.components.head? = some ['.'.toUInt8] then [.current]
  else []

def inner (p : Path) : List Component := p.components.filterMap Component.ofPart?

/-- The components of a path as its steps. -/
def steps (p : Path) : List Component := p.origin ++ p.inner

/-- A path begins with the steps of a directory, and none of those that follow goes up. -/
def Below (directory p : Path) : Prop :=
  directory.steps <+: p.steps ∧ Component.parent ∉ p.steps.drop directory.steps.length

instance (directory p : Path) : Decidable (Below directory p) := inferInstanceAs (Decidable (_ ∧ _))

variable {base p : Path}

theorem inner_append_slash (base p : Path) :
    inner (base ++ '/'.toUInt8 :: p) = base.inner ++ p.inner := by
  rw [inner, components, Bytes.split_append_cons, List.filterMap_append]
  rfl

theorem origin_append_slash (hbase : base ≠ []) (p : Path) :
    origin (base ++ '/'.toUInt8 :: p) = base.origin := by
  have habsolute : IsAbsolute (base ++ '/'.toUInt8 :: p) ↔ base.IsAbsolute := by
    rw [IsAbsolute, IsAbsolute, List.head?_append_of_ne_nil _ hbase]
  have hfirst : (components (base ++ '/'.toUInt8 :: p)).head? = base.components.head? := by
    rw [components, Bytes.split_append_cons, List.head?_append_of_ne_nil _ (Bytes.split_ne_nil _ _)]
    rfl
  simp only [origin, habsolute, hfirst]

theorem parent_mem_steps_iff : Component.parent ∈ p.steps ↔ Component.parent ∈ p.inner := by
  have horigin : Component.parent ∉ p.origin := by
    unfold origin
    split_ifs <;> simp
  rw [steps, List.mem_append, or_iff_right horigin]

theorem steps_append_slash (hbase : base ≠ []) (p : Path) :
    steps (base ++ '/'.toUInt8 :: p) = base.steps ++ p.inner := by
  rw [steps, origin_append_slash hbase, inner_append_slash, steps, List.append_assoc]

/-- As `steps_append_slash` for a base that ends with the slash, which may be the root. -/
theorem steps_slash_append (base p : Path) :
    steps (base ++ '/'.toUInt8 :: p) = steps (base ++ ['/'.toUInt8]) ++ p.inner := by
  cases base with
  | nil => rfl
  | cons b base =>
    rw [steps_append_slash (List.cons_ne_nil b base), steps_append_slash (List.cons_ne_nil b base)]
    exact congrArg (· ++ p.inner) (List.append_nil _).symm

/-- A relative path is joined behind the steps of its base. -/
theorem steps_join (h : ¬ p.IsAbsolute) (base : Path) : ∃ after,
    (join base p).steps = base.steps ++ after ∧
      (Component.parent ∈ after ↔ Component.parent ∈ p.steps) := by
  rw [join, if_neg h]
  by_cases hbase : base = []
  · rw [if_pos (.inl hbase), hbase]
    exact ⟨p.steps, rfl, Iff.rfl⟩
  · refine ⟨p.inner, ?_, parent_mem_steps_iff.symm⟩
    split_ifs with hslash
    · obtain ⟨first, rfl⟩ := List.getLast?_eq_some_iff.1 (hslash.resolve_left hbase)
      rw [List.append_assoc]
      exact steps_slash_append first p
    · exact steps_append_slash hbase p

theorem below_iff {directory : Path} {after : List Component}
    (h : p.steps = directory.steps ++ after) :
    Below directory p ↔ Component.parent ∉ after := by
  rw [Below, h, List.drop_left]
  exact and_iff_right (List.prefix_append _ _)

/-- A path that is joined to a directory by way of another one stays below it if it does not go up. -/
theorem below_join_join_iff {leaf : Path} (hleaf : ¬ leaf.IsAbsolute)
    (hparent : Component.parent ∉ leaf.steps) (hp : ¬ p.IsAbsolute) :
    Below base (join (join base leaf) p) ↔ Component.parent ∉ p.steps := by
  obtain ⟨inside, hinside, hup⟩ := steps_join hleaf base
  obtain ⟨after, hafter, hup'⟩ := steps_join hp (join base leaf)
  rw [hinside, List.append_assoc] at hafter
  rw [below_iff hafter, List.mem_append, hup, hup', or_iff_right hparent]

end Path

namespace Search
open TerminalCaps.Path

/-- The directory that stands between a searched one and a file: the first byte of the name, as a
character or in hexadecimal. -/
def IsLeaf (first : UInt8) (leaf : Path) : Prop := leaf = characterLeaf first ∨ leaf = hexLeaf first

/-- What holds of all bytes can be checked byte by byte. -/
theorem forall_byte {P : UInt8 → Prop} (h : ∀ n < 256, P (UInt8.ofNat n)) (b : UInt8) : P b := by
  have hb := h b.toNat b.toNat_lt
  rwa [UInt8.ofNat_toNat] at hb

theorem leaf_relative {first : UInt8} (h : first ≠ '/'.toUInt8) {leaf : Path}
    (hleaf : IsLeaf first leaf) : ¬ leaf.IsAbsolute ∧ Component.parent ∉ leaf.steps := by
  have hall : ∀ first : UInt8, first ≠ '/'.toUInt8 →
      ∀ leaf ∈ [characterLeaf first, hexLeaf first],
        ¬ leaf.IsAbsolute ∧ Component.parent ∉ leaf.steps :=
    forall_byte (by decide +kernel)
  apply hall first h
  rcases hleaf with rfl | rfl
  · exact List.mem_cons_self
  · exact List.mem_cons_of_mem _ List.mem_cons_self

variable {isFile : Path → Bool} {env : Environment} {name path directory : Path}

/-- A file that is found is one of two for each directory. -/
theorem findInDirectory_eq_some (h : findInDirectory isFile name directory = some path) :
    ∃ first rest leaf, name = first :: rest ∧ IsLeaf first leaf ∧
      path = join (join directory leaf) name ∧ isFile path := by
  cases name with
  | nil => cases h
  | cons first rest =>
    simp only [findInDirectory] at h
    split_ifs at h with hcharacter hhex
    · cases h
      exact ⟨first, rest, characterLeaf first, rfl, .inl rfl, rfl, hcharacter⟩
    · cases h
      exact ⟨first, rest, hexLeaf first, rfl, .inr rfl, rfl, hhex⟩

theorem locate_eq_ok (h : locate isFile env name = .ok path) : ∃ resolved,
    resolveName env name = .ok resolved ∧
      ∃ directory ∈ searchDirectories env, findInDirectory isFile resolved directory = some path := by
  obtain ⟨resolved, hresolved, hfound⟩ := Sequencing.bind_eq_ok_iff.1 h
  refine ⟨resolved, hresolved, ?_⟩
  cases hsearch : (searchDirectories env).findSome? (findInDirectory isFile resolved) with
  | none => simp [hsearch] at hfound
  | some found =>
    rw [hsearch] at hfound
    cases hfound
    exact List.exists_of_findSome?_eq_some hsearch

/-- The name of a terminal leads the search out of a searched directory exactly if it goes up, or is
absolute, and then no directory plays a part. -/
theorem locate_below (h : locate isFile env name = .ok path) :
    ∃ directory ∈ searchDirectories env, ∃ first rest leaf,
      resolveName env name = .ok (first :: rest) ∧ IsLeaf first leaf ∧
      path = join (join directory leaf) (first :: rest) ∧ isFile path ∧
      (IsAbsolute (first :: rest) → path = first :: rest) ∧
      (¬ IsAbsolute (first :: rest) →
        (Below directory path ↔ Component.parent ∉ steps (first :: rest))) := by
  obtain ⟨resolved, hresolved, directory, hdirectory, hfound⟩ := locate_eq_ok h
  obtain ⟨first, rest, leaf, rfl, hleaf, rfl, hfile⟩ := findInDirectory_eq_some hfound
  refine ⟨directory, hdirectory, first, rest, leaf, hresolved, hleaf, rfl, hfile, ?_, ?_⟩
  · intro habsolute
    exact if_pos habsolute
  · intro hrelative
    have hslash : first ≠ '/'.toUInt8 := fun hfirst => hrelative (congrArg some hfirst)
    obtain ⟨hleaf, hparent⟩ := leaf_relative hslash hleaf
    exact below_join_join_iff hleaf hparent hrelative

/-- A database and a file beside it. -/
def fileBesideDatabase : FileTree :=
  ({ } : FileTree).createFile (Bytes.ofAscii "/db/x/xterm/1") [] |>.createFile
    (Bytes.ofAscii "/secret") []

def databaseOnly : Environment where
  home := some (Bytes.ofAscii "/home")
  terminfo := some (Bytes.ofAscii "/db")

theorem locate_below_xterm :
    locate fileBesideDatabase.isFile databaseOnly (Bytes.ofAscii "xterm/./1") =
        .ok (Bytes.ofAscii "/db/x/xterm/./1") ∧
      Below (Bytes.ofAscii "/db") (Bytes.ofAscii "/db/x/xterm/./1") := by
  have hlocate : locate fileBesideDatabase.isFile databaseOnly (Bytes.ofAscii "xterm/./1") =
      .ok (Bytes.ofAscii "/db/x/xterm/./1") := by decide +kernel
  obtain ⟨directory, hdirectory, first, rest, leaf, hname, -, -, -, -, hbelow⟩ :=
    locate_below hlocate
  cases List.mem_singleton.1 hdirectory
  cases hname
  exact ⟨hlocate, (hbelow (by decide)).2 (by decide)⟩

/-- An absolute name is found outside of all searched directories, and so is one that goes up. -/
theorem locate_secret : searchDirectories databaseOnly = [Bytes.ofAscii "/db"] ∧
    locate fileBesideDatabase.isFile databaseOnly (Bytes.ofAscii "/secret") =
      .ok (Bytes.ofAscii "/secret") ∧
    ¬ Below (Bytes.ofAscii "/db") (Bytes.ofAscii "/secret") ∧
    locate fileBesideDatabase.isFile databaseOnly (Bytes.ofAscii "xterm/../../../secret") =
      .ok (Bytes.ofAscii "/db/x/xterm/../../../secret") ∧
    ¬ Below (Bytes.ofAscii "/db") (Bytes.ofAscii "/db/x/xterm/../../../secret") := by
  decide +kernel

end Search
end TerminalCaps

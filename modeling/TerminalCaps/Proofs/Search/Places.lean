import TerminalCaps.Proofs.Sequencing
import TerminalCaps.Search.Locate

/-!
In which order a search looks at files. The places where the file of a terminal can be form one list,
which depends on the environment and the name only; the first file in that list is what is found.
-/
namespace TerminalCaps.Search

/-- The file of a terminal below a leaf directory. -/
def place (directory leaf name : Path) : Path := Path.join (Path.join directory leaf) name

/-- The places in one directory: by the first character of the name, then by its hexadecimal digits. -/
def placesIn (name : Bytes) (directory : Path) : List Path :=
  match name with
  | [] => []
  | first :: _ => [characterLeaf first, hexLeaf first].map fun leaf => place directory leaf name

/-- The places in all directories, in the order of the directories. -/
def searchedPlaces (env : Environment) (name : Bytes) : List Path :=
  (searchDirectories env).flatMap (placesIn name)

/-- The paths that stand before a given one, all of them if it is not there. -/
def before (paths : List Path) (path : Path) : List Path := paths.takeWhile (· ≠ path)

/-- A file of a list before which no other one stands. -/
structure IsFirstFile (isFile : Path → Bool) (paths : List Path) (path : Path) : Prop where
  listed : path ∈ paths
  found : isFile path
  unrivalled : ∀ other ∈ before paths path, ¬ isFile other

section Lists

variable {isFile more : Path → Bool} {paths : List Path} {path head : Path}

@[simp] theorem before_cons_self : before (path :: paths) path = [] := by
  simp [before]

theorem before_cons_of_ne (h : head ≠ path) :
    before (head :: paths) path = head :: before paths path := by
  simp [before, h]

@[simp] theorem not_isFirstFile_nil : ¬ IsFirstFile isFile [] path :=
  fun h => List.not_mem_nil h.listed

theorem isFirstFile_cons_iff : IsFirstFile isFile (head :: paths) path ↔
    isFile head ∧ head = path ∨ ¬ isFile head ∧ IsFirstFile isFile paths path := by
  constructor
  · intro h
    by_cases heq : head = path
    · exact .inl ⟨heq ▸ h.found, heq⟩
    · have hrest := h.unrivalled
      rw [before_cons_of_ne heq, List.forall_mem_cons] at hrest
      have hlisted := List.mem_of_ne_of_mem (Ne.symm heq) h.listed
      exact .inr ⟨hrest.1, hlisted, h.found, hrest.2⟩
  · rintro (⟨hhead, rfl⟩ | ⟨hhead, h⟩)
    · exact ⟨List.mem_cons_self, hhead, by simp⟩
    · have hne : head ≠ path := fun heq => hhead (heq ▸ h.found)
      refine ⟨List.mem_cons_of_mem _ h.listed, h.found, ?_⟩
      rw [before_cons_of_ne hne, List.forall_mem_cons]
      exact ⟨hhead, h.unrivalled⟩

theorem find?_eq_some_iff_isFirstFile :
    paths.find? isFile = some path ↔ IsFirstFile isFile paths path := by
  induction paths with
  | nil => simp
  | cons head paths ih =>
    rw [isFirstFile_cons_iff]
    by_cases hhead : isFile head
    · simp [hhead]
    · simp [hhead, ih]

/-- With more files the first one is the same, or one that stood before it. -/
theorem IsFirstFile.of_more (h : IsFirstFile isFile paths path)
    (hmore : ∀ path, isFile path → more path) :
    ∃ earlier, IsFirstFile more paths earlier ∧
      (earlier = path ∨ earlier ∈ before paths path) := by
  induction paths with
  | nil => exact absurd h not_isFirstFile_nil
  | cons head paths ih =>
    obtain ⟨hhead, rfl⟩ | ⟨hhead, hrest⟩ := isFirstFile_cons_iff.1 h
    · exact ⟨head, isFirstFile_cons_iff.2 (.inl ⟨hmore head hhead, rfl⟩), .inl rfl⟩
    · have hne : head ≠ path := fun heq => hhead (heq ▸ hrest.found)
      rw [before_cons_of_ne hne]
      by_cases hnew : more head
      · exact ⟨head, isFirstFile_cons_iff.2 (.inl ⟨hnew, rfl⟩), .inr List.mem_cons_self⟩
      · obtain ⟨earlier, hfirst, hplace⟩ := ih hrest
        exact ⟨earlier, isFirstFile_cons_iff.2 (.inr ⟨hnew, hfirst⟩),
          hplace.imp_right (List.mem_cons_of_mem head)⟩

end Lists

variable {isFile : Path → Bool} {env : Environment} {name resolved : Bytes}

/-- In a directory the first of its places that is a file is found. -/
theorem findInDirectory_eq_find? (isFile : Path → Bool) (name : Bytes) (directory : Path) :
    findInDirectory isFile name directory = (placesIn name directory).find? isFile := by
  cases name with
  | nil => rfl
  | cons first rest =>
    simp only [findInDirectory, placesIn, place, List.map_cons, List.map_nil, List.find?_cons,
      List.find?_nil]
    split
    · next h => rw [h]
    · next h =>
      rw [Bool.eq_false_iff.2 h]
      split
      · next h => rw [h]
      · next h => rw [Bool.eq_false_iff.2 h]

theorem resolveName_eq_error_iff : resolveName env name = .error .nameUnresolved ↔
    name = [] ∧ (env.term = none ∨ env.term = some []) := by
  unfold resolveName
  split
  · next h => simp [h]
  · next h =>
    have hname : name = [] := not_not.1 h
    split <;> simp_all

theorem ne_nil_of_resolveName (h : resolveName env name = .ok resolved) : resolved ≠ [] := by
  unfold resolveName at h
  split at h
  · next hname =>
    cases h
    exact hname
  · split at h
    · cases h
    · cases h
    · next hne _ =>
      cases h
      rintro rfl
      exact hne rfl

section Resolved

variable (h : resolveName env name = .ok resolved)

include h

theorem locate_of_resolveName (isFile : Path → Bool) : locate isFile env name =
    ((searchedPlaces env resolved).find? isFile).elim (.error .notFound) .ok := by
  have hfind : (searchDirectories env).findSome? (findInDirectory isFile resolved) =
      (searchedPlaces env resolved).find? isFile := by
    rw [searchedPlaces, List.find?_flatMap]
    exact congrArg (List.findSome? · _) (funext (findInDirectory_eq_find? isFile resolved))
  simp only [locate, h, bind, Except.bind, hfind]
  cases (searchedPlaces env resolved).find? isFile <;> rfl

theorem locate_eq_ok_iff_isFirstFile {path : Path} :
    locate isFile env name = .ok path ↔ IsFirstFile isFile (searchedPlaces env resolved) path := by
  rw [locate_of_resolveName h, ← find?_eq_some_iff_isFirstFile]
  cases (searchedPlaces env resolved).find? isFile <;> simp

theorem locate_eq_notFound_iff : locate isFile env name = .error .notFound ↔
    ∀ path ∈ searchedPlaces env resolved, ¬ isFile path := by
  rw [locate_of_resolveName h, ← List.find?_eq_none]
  cases (searchedPlaces env resolved).find? isFile <;> simp

theorem locate_congr {other : Path → Bool}
    (hsame : ∀ path ∈ searchedPlaces env resolved, other path = isFile path) :
    locate other env name = locate isFile env name := by
  rw [locate_of_resolveName h, locate_of_resolveName h, ← List.head?_filter,
    List.filter_congr hsame, List.head?_filter]

end Resolved

theorem locate_eq_nameUnresolved_iff : locate isFile env name = .error .nameUnresolved ↔
    name = [] ∧ (env.term = none ∨ env.term = some []) := by
  rw [← resolveName_eq_error_iff]
  cases h : resolveName env name with
  | error e => simp [locate, h, bind, Except.bind]
  | ok resolved =>
    rw [locate_of_resolveName h]
    cases (searchedPlaces env resolved).find? isFile <;> simp

/-- The search finds the first file in the order of the places, so more files can only lead it to an
earlier place, and files elsewhere do not count. -/
theorem locate_first_place (isFile : Path → Bool) (env : Environment) (name : Bytes) :
    (locate isFile env name = .error .nameUnresolved ↔
      name = [] ∧ (env.term = none ∨ env.term = some [])) ∧
    ∀ resolved, resolveName env name = .ok resolved →
      let places := searchedPlaces env resolved
      resolved ≠ [] ∧
      (∀ path, locate isFile env name = .ok path ↔ IsFirstFile isFile places path) ∧
      (locate isFile env name = .error .notFound ↔ ∀ path ∈ places, ¬ isFile path) ∧
      (∀ more : Path → Bool, (∀ path, isFile path → more path) →
        ∀ path, locate isFile env name = .ok path → ∃ earlier,
          locate more env name = .ok earlier ∧ (earlier = path ∨ earlier ∈ before places path)) ∧
      ∀ other : Path → Bool, (∀ path ∈ places, other path = isFile path) →
        locate other env name = locate isFile env name := by
  refine ⟨locate_eq_nameUnresolved_iff, ?_⟩
  intro resolved h places
  refine ⟨ne_nil_of_resolveName h, fun path => locate_eq_ok_iff_isFirstFile h,
    locate_eq_notFound_iff h, ?_, fun other => locate_congr h⟩
  intro more hmore path hpath
  have hfirst : IsFirstFile isFile places path := (locate_eq_ok_iff_isFirstFile h).1 hpath
  obtain ⟨earlier, hearlier, hplace⟩ := hfirst.of_more hmore
  exact ⟨earlier, (locate_eq_ok_iff_isFirstFile h).2 hearlier, hplace⟩

/-- Two directories, and a terminal that only the environment names. -/
def twoDirectories : Environment where
  home := some (Bytes.ofAscii "/home")
  term := some (Bytes.ofAscii "vt220")
  terminfoDirs := some (Bytes.ofAscii "/a:/b")

/-- A file is found by hexadecimal digits, until there is one in the directory before. -/
theorem locate_first_place_twoDirectories :
    let old := Bytes.ofAscii "/b/76/vt220"
    let new := Bytes.ofAscii "/a/v/vt220"
    let places := searchedPlaces twoDirectories (Bytes.ofAscii "vt220")
    locate (· = old) twoDirectories [] = .ok old ∧
      locate (· ∈ [old, new]) twoDirectories [] = .ok new ∧ new ∈ before places old ∧
      locate (· = Bytes.ofAscii "/b/vt220") twoDirectories [] = .error .notFound := by
  intro old new places
  have hname : resolveName twoDirectories [] = .ok (Bytes.ofAscii "vt220") := by decide
  obtain ⟨-, hfirst, -, hmore, -⟩ :=
    (locate_first_place (· = old) twoDirectories []).2 _ hname
  obtain ⟨-, -, hnone, -, -⟩ :=
    (locate_first_place (· = Bytes.ofAscii "/b/vt220") twoDirectories []).2 _ hname
  have hold : locate (· = old) twoDirectories [] = .ok old :=
    (hfirst old).2 (find?_eq_some_iff_isFirstFile.1 (by decide +kernel))
  have hnew : locate (· ∈ [old, new]) twoDirectories [] = .ok new := by decide +kernel
  obtain ⟨earlier, hearlier, hplace⟩ := hmore (· ∈ [old, new]) (by simp +contextual) old hold
  cases hnew.symm.trans hearlier
  exact ⟨hold, hnew, hplace.resolve_left (by decide), hnone.2 (by decide +kernel)⟩

end TerminalCaps.Search

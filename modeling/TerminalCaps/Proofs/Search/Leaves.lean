import TerminalCaps.Proofs.Bytes.Utf8
import TerminalCaps.Proofs.Search.Containment
import TerminalCaps.Proofs.Search.Places

/-!
Leaf directories and the first character of a name. The leaf is the character whose code is the first
byte of the name, which is the first character itself only if that has one byte, or is that of code
`C3`, whose first byte is its code.
-/
namespace TerminalCaps

namespace Bytes.Utf8

theorem scalarBytes_injective {n m : Nat} (h : scalarBytes n = scalarBytes m) : n = m := by
  unfold scalarBytes at h
  split_ifs at h <;> simp only [List.cons.injEq, reduceCtorEq, and_true, and_false] at h <;> omega

theorem utf8EncodeChar_injective {c d : Char}
    (h : String.utf8EncodeChar c = String.utf8EncodeChar d) : c = d := by
  apply Char.toNat_inj.1
  apply scalarBytes_injective
  rw [← toNat_utf8EncodeChar, ← toNat_utf8EncodeChar, h]

/-- The bytes of a character that is not ASCII are not ASCII either. -/
theorem eq_of_mem_utf8EncodeChar {c : Char} {b : UInt8} (hb : b ∈ String.utf8EncodeChar c)
    (hascii : b.toNat < 0x80) : c.toNat = b.toNat := by
  have hmem : b.toNat ∈ scalarBytes c.toNat := by
    rw [← toNat_utf8EncodeChar]
    exact List.mem_map_of_mem hb
  unfold scalarBytes at hmem
  split_ifs at hmem <;> simp only [List.mem_cons, List.not_mem_nil, or_false] at hmem <;> omega

/-- The first byte of a character. -/
def firstByte (c : Char) : UInt8 := (String.utf8EncodeChar c).head String.utf8EncodeChar_ne_nil

theorem utf8EncodeChar_eq_cons (c : Char) :
    String.utf8EncodeChar c = firstByte c :: (String.utf8EncodeChar c).tail :=
  (List.cons_head_tail _).symm

theorem firstByte_mem (c : Char) : firstByte c ∈ String.utf8EncodeChar c := List.head_mem _

/-- The code of a character is its first byte in ASCII, and for one other character. -/
theorem toNat_firstByte_eq_iff {c : Char} :
    (firstByte c).toNat = c.toNat ↔ c.toNat < 0x80 ∨ c.toNat = 0xC3 := by
  have hbytes := toNat_utf8EncodeChar c
  rw [utf8EncodeChar_eq_cons, List.map_cons] at hbytes
  unfold scalarBytes at hbytes
  split_ifs at hbytes <;> have hfirst := (List.cons.inj hbytes).1 <;> omega

end Bytes.Utf8

namespace Path

variable {base p : Path}

/-- A path that is a single component. -/
def IsName (p : Path) : Prop := p ≠ [] ∧ '/'.toUInt8 ∉ p

instance (p : Path) : Decidable p.IsName := inferInstanceAs (Decidable (_ ∧ _))

theorem IsName.relative (h : p.IsName) : ¬ p.IsAbsolute :=
  fun habsolute => h.2 (List.mem_of_mem_head? habsolute)

/-- A path that others can be written behind. -/
def opened (base : Path) : Path :=
  if base = [] ∨ base.getLast? = some '/'.toUInt8 then base else base ++ ['/'.toUInt8]

theorem join_eq_opened (h : ¬ p.IsAbsolute) (base : Path) : join base p = base.opened ++ p := by
  rw [join, if_neg h, opened]
  split
  · rfl
  · exact List.append_cons base '/'.toUInt8 p

theorem opened_append (h : p.IsName) (base : Path) :
    opened (base ++ p) = base ++ p ++ ['/'.toUInt8] := by
  rw [opened, if_neg]
  rintro (hempty | hslash)
  · exact h.1 (List.append_eq_nil_iff.1 hempty).2
  · rw [List.getLast?_append_of_ne_nil base h.1] at hslash
    exact h.2 (List.mem_of_getLast? hslash)

end Path

namespace Search
open TerminalCaps.Path Bytes.Utf8

theorem place_eq {leaf name : Path} (hleaf : leaf.IsName) (hname : ¬ name.IsAbsolute)
    (directory : Path) :
    place directory leaf name = directory.opened ++ leaf ++ ['/'.toUInt8] ++ name := by
  rw [place, join_eq_opened hname, join_eq_opened hleaf.relative, opened_append hleaf]

/-- Different leaf directories hold different files. -/
theorem place_injective {leaf leaf' name directory : Path} (hleaf : leaf.IsName)
    (hleaf' : leaf'.IsName) (hname : ¬ name.IsAbsolute)
    (h : place directory leaf name = place directory leaf' name) : leaf = leaf' := by
  rw [place_eq hleaf hname, place_eq hleaf' hname] at h
  exact List.append_cancel_left (List.append_cancel_right (List.append_cancel_right h))

theorem characterLeaf_eq : ∀ first : UInt8,
    characterLeaf first = String.utf8EncodeChar (Char.ofNat first.toNat) :=
  forall_byte (by decide +kernel)

theorem isName_hexLeaf : ∀ first : UInt8, (hexLeaf first).IsName :=
  forall_byte (by decide +kernel)

theorem ascii_of_mem_hexLeaf {first b : UInt8} (h : b ∈ hexLeaf first) : b.toNat < 0x80 := by
  have hall : ∀ first : UInt8, (hexLeaf first).all (·.toNat < 0x80) :=
    forall_byte (by decide +kernel)
  exact of_decide_eq_true (List.all_eq_true.1 (hall first) b h)

theorem isName_utf8EncodeChar {c : Char} (h : c ≠ '/') :
    IsName (String.utf8EncodeChar c) := by
  refine ⟨String.utf8EncodeChar_ne_nil, fun hmem => h ?_⟩
  exact Char.toNat_inj.1 (eq_of_mem_utf8EncodeChar hmem (by decide))

/-- The hexadecimal digits of a byte are no character beyond ASCII. -/
theorem hexLeaf_ne_utf8EncodeChar {c : Char} (h : 0x80 ≤ c.toNat) (first : UInt8) :
    hexLeaf first ≠ String.utf8EncodeChar c := by
  intro heq
  have hascii : (firstByte c).toNat < 0x80 := ascii_of_mem_hexLeaf (heq ▸ firstByte_mem c)
  have hcode := eq_of_mem_utf8EncodeChar (firstByte_mem c) hascii
  omega

/-- The places of a terminal in a directory if its leaf directories are those of a character and of a
byte. -/
def placesBy (c : Char) (first : UInt8) (name : Bytes) (directory : Path) : List Path :=
  [place directory (String.utf8EncodeChar c) name, place directory (hexLeaf first) name]

section FirstCharacter

variable {c : Char} {rest : Bytes} {directory : Path}

/-- The character is the one whose code is the first byte of the name. -/
theorem placesIn_eq (c : Char) (rest : Bytes) (directory : Path) :
    placesIn (String.utf8EncodeChar c ++ rest) directory =
      placesBy (Char.ofNat (firstByte c).toNat) (firstByte c) (String.utf8EncodeChar c ++ rest)
        directory := by
  rw [placesBy, ← characterLeaf_eq, utf8EncodeChar_eq_cons]
  rfl

theorem toNat_ofNat_byte : ∀ b : UInt8, (Char.ofNat b.toNat).toNat = b.toNat :=
  forall_byte (by decide +kernel)

theorem ofNat_firstByte_eq_iff :
    Char.ofNat (firstByte c).toNat = c ↔ c.toNat < 0x80 ∨ c.toNat = 0xC3 := by
  rw [← toNat_firstByte_eq_iff, ← Char.toNat_inj, toNat_ofNat_byte]

theorem ofNat_firstByte_ne_slash (hslash : c ≠ '/') : Char.ofNat (firstByte c).toNat ≠ '/' := by
  intro heq
  have hbyte : (firstByte c).toNat = '/'.toNat := by
    rw [← toNat_ofNat_byte, heq]
  have hascii : (firstByte c).toNat < 0x80 := by
    rw [hbyte]
    decide
  have hcode := eq_of_mem_utf8EncodeChar (firstByte_mem c) hascii
  exact hslash (Char.toNat_inj.1 (hcode.trans hbyte))

theorem relative_append (hslash : c ≠ '/') :
    ¬ IsAbsolute (String.utf8EncodeChar c ++ rest) := by
  rw [IsAbsolute, List.head?_append_of_ne_nil _ String.utf8EncodeChar_ne_nil]
  exact (isName_utf8EncodeChar hslash).relative

/-- The place below the first character is not looked at, if the leaf is another character. -/
theorem place_not_mem_placesIn (hslash : c ≠ '/')
    (hcode : ¬ (c.toNat < 0x80 ∨ c.toNat = 0xC3)) :
    place directory (String.utf8EncodeChar c) (String.utf8EncodeChar c ++ rest) ∉
      placesIn (String.utf8EncodeChar c ++ rest) directory := by
  have hname : ¬ IsAbsolute (String.utf8EncodeChar c ++ rest) := relative_append hslash
  have hleaf := isName_utf8EncodeChar hslash
  rw [placesIn_eq, placesBy, List.mem_cons, List.mem_singleton, not_or]
  constructor
  · intro heq
    have hsame := place_injective hleaf
      (isName_utf8EncodeChar (ofNat_firstByte_ne_slash hslash)) hname heq
    exact hcode (ofNat_firstByte_eq_iff.1 (utf8EncodeChar_injective hsame).symm)
  · intro heq
    have hsame := place_injective hleaf (isName_hexLeaf (firstByte c)) hname heq
    exact hexLeaf_ne_utf8EncodeChar (by omega) (firstByte c) hsame.symm

end FirstCharacter

/-- A directory is searched by the character whose code is the first byte of the name. That is a
search by the first character, whatever the files are, for ASCII and for one other character; for
all others the file in its place is not found. -/
theorem findInDirectory_by_character_iff (c : Char) (rest : List Char) (hslash : '/' ∉ c :: rest)
    (directory : Path) :
    let name := (c :: rest).flatMap String.utf8EncodeChar
    let first := firstByte c
    let standard := place directory (String.utf8EncodeChar c) name
    (∀ isFile, findInDirectory isFile name directory =
      (placesBy (Char.ofNat first.toNat) first name directory).find? isFile) ∧
    ((∀ isFile, findInDirectory isFile name directory =
      (placesBy c first name directory).find? isFile) ↔ c.toNat < 0x80 ∨ c.toNat = 0xC3) ∧
    (¬ (c.toNat < 0x80 ∨ c.toNat = 0xC3) →
      findInDirectory (· = standard) name directory = none) := by
  intro name first standard
  have hc : c ≠ '/' := fun heq => hslash (heq ▸ List.mem_cons_self)
  have hname : name = String.utf8EncodeChar c ++ rest.flatMap String.utf8EncodeChar :=
    List.flatMap_cons
  have hplaces : placesIn name directory =
      placesBy (Char.ofNat first.toNat) first name directory := by
    rw [hname]
    exact placesIn_eq c _ directory
  have hmissed (hcode : ¬ (c.toNat < 0x80 ∨ c.toNat = 0xC3)) :
      findInDirectory (· = standard) name directory = none := by
    have hmem : standard ∉ placesIn name directory := by
      simp only [standard, hname]
      exact place_not_mem_placesIn hc hcode
    rw [findInDirectory_eq_find?, List.find?_eq_none]
    intro path hpath hstandard
    exact hmem (of_decide_eq_true hstandard ▸ hpath)
  refine ⟨?_, ⟨?_, ?_⟩, hmissed⟩
  · intro isFile
    rw [findInDirectory_eq_find?, hplaces]
  · intro hall
    by_contra hcode
    have hfound : (placesBy c first name directory).find? (· = standard) = some standard :=
      List.find?_cons_of_pos (decide_eq_true rfl)
    rw [← hall, hmissed hcode] at hfound
    cases hfound
  · intro hcode isFile
    rw [findInDirectory_eq_find?, hplaces, ofNat_firstByte_eq_iff.2 hcode]

/-- A name that begins with a letter of code `E9`, whose first byte is `C3`. -/
def accentedName : Bytes := String.utf8EncodeChar (Char.ofNat 0xE9) ++ Bytes.ofAscii "term"

/-- Its only file, below a directory that is named for that letter. -/
def accentedFile : Path :=
  place (Bytes.ofAscii "/db") (String.utf8EncodeChar (Char.ofNat 0xE9)) accentedName

theorem findInDirectory_by_character_terms :
    (∀ isFile, findInDirectory isFile (Bytes.ofAscii "term") (Bytes.ofAscii "/db") =
        [Bytes.ofAscii "/db/t/term", Bytes.ofAscii "/db/74/term"].find? isFile) ∧
      findInDirectory (· = accentedFile) accentedName (Bytes.ofAscii "/db") = none := by
  obtain ⟨-, hascii, -⟩ := findInDirectory_by_character_iff 't' ['e', 'r', 'm'] (by decide)
    (Bytes.ofAscii "/db")
  obtain ⟨-, -, hmissed⟩ := findInDirectory_by_character_iff (Char.ofNat 0xE9)
    ['t', 'e', 'r', 'm'] (by decide) (Bytes.ofAscii "/db")
  exact ⟨hascii.2 (by decide), hmissed (by decide)⟩

/-- The file of a terminal stands below the first character of its name, and is not found. -/
theorem locate_accentedFile :
    let files := ({ } : FileTree).createFile accentedFile []
    files.isFile accentedFile = true ∧
      findInDirectory files.isFile accentedName (Bytes.ofAscii "/db") = none ∧
      searchDirectories databaseOnly = [Bytes.ofAscii "/db"] ∧
      locate files.isFile databaseOnly accentedName = .error .notFound := by
  decide +kernel

end Search
end TerminalCaps

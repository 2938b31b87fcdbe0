/-! Byte strings: ASCII text, separated parts, and strings that end at a zero byte. -/
namespace TerminalCaps

abbrev Bytes := List UInt8

namespace Bytes

/-- The bytes of an ASCII text. -/
def ofAscii (text : String) : Bytes := text.toList.map Char.toUInt8

/-- The parts between the separators; there is one part more than there are separators. -/
def split (separator : UInt8) : Bytes → List Bytes
  | [] => [[]]
  | b :: rest =>
    if b = separator then [] :: split separator rest
    else match split separator rest with
      | [] => [[b]]
      | part :: parts => (b :: part) :: parts

theorem split_ne_nil (separator : UInt8) (bytes : Bytes) : split separator bytes ≠ [] := by
  cases bytes with
  | nil => simp [split]
  | cons b rest =>
    rw [split]
    split
    · simp
    · split <;> simp

theorem split_append_cons (separator : UInt8) (first rest : Bytes) :
    split separator (first ++ separator :: rest) = split separator first ++ split separator rest := by
  induction first with
  | nil => simp [split]
  | cons b first ih =>
    rw [List.cons_append, split, split, ih]
    by_cases h : b = separator
    · rw [if_pos h, if_pos h]
      rfl
    · rw [if_neg h, if_neg h]
      cases hfirst : split separator first with
      | nil => exact absurd hfirst (split_ne_nil separator first)
      | cons part parts => rfl

/-- Bytes of a kind are told apart from what follows by its first byte. -/
theorem span_append {p : UInt8 → Bool} {front rest : Bytes} (hfront : ∀ b ∈ front, p b)
    (hrest : ∀ b ∈ rest.head?, ¬ p b) :
    (front ++ rest).takeWhile p = front ∧ (front ++ rest).dropWhile p = rest := by
  rw [List.takeWhile_append_of_pos hfront, List.dropWhile_append_of_pos hfront]
  cases rest with
  | nil => simp
  | cons b rest =>
    have hb := hrest b rfl
    simp [hb]

theorem not_of_mem_head?_dropWhile {p : UInt8 → Bool} {bytes : Bytes} :
    ∀ b ∈ (bytes.dropWhile p).head?, ¬ p b := by
  intro b hb
  have hhead := List.head?_dropWhile_not p bytes
  rw [Option.mem_def.1 hb] at hhead
  simpa using hhead

/-- The bytes before the first zero byte, if there is one. -/
def zeroTerminated? (bytes : Bytes) : Option Bytes :=
  if 0 ∈ bytes then some (bytes.takeWhile (· != 0)) else none

theorem zeroTerminated?_eq_none_iff {bytes : Bytes} :
    zeroTerminated? bytes = none ↔ 0 ∉ bytes := by
  simp [zeroTerminated?]

/-- A text without zero bytes is read back from the bytes that begin with it and a zero byte. -/
theorem zeroTerminated?_append {text : Bytes} (h : 0 ∉ text) (rest : Bytes) :
    zeroTerminated? (text ++ 0 :: rest) = some text := by
  have htext : ∀ b ∈ text, (b != 0) = true := by
    intro b hb
    simp only [bne_iff_ne]
    rintro rfl
    exact h hb
  simp [zeroTerminated?, List.takeWhile_append_of_pos htext]

/-- The two's complement number of any width whose bytes stand lowest first. -/
def signed (bytes : Bytes) : Int :=
  Int.bmod (bytes.foldr (fun b high => b.toNat + 256 * high) 0 : Nat) (Nat.pow 256 bytes.length)

/-- The first `count` signed numbers of `size` bytes each. -/
def signedList (size : Nat) : Nat → Bytes → List Int
  | 0, _ => []
  | count + 1, bytes => signed (bytes.take size) :: signedList size count (bytes.drop size)

@[simp] theorem length_signedList (size count : Nat) (bytes : Bytes) :
    (signedList size count bytes).length = count := by
  induction count generalizing bytes with
  | zero => rfl
  | succ n ih => simp [signedList, ih]

end Bytes
end TerminalCaps

import Mathlib.Data.List.TakeWhile
import TerminalCaps.Expansion.Session
import TerminalCaps.Proofs.Bytes.Integers

/-!
Texts as the numbers of atoi: white space, a sign and digits, each as long as it can be. A text on the
stack is the same number in 32 bits, unless a vertical tab stands in the white space. It is not
skipped, so that the text is 0.
-/
namespace TerminalCaps
namespace Bytes

def verticalTab : UInt8 := 0x0B

/-- White space of the C locale: space, tab, newline, vertical tab, form feed and carriage return. -/
def isSpace (b : UInt8) : Bool := [0x20, 0x09, 0x0A, verticalTab, 0x0C, 0x0D].contains b

theorem isBlank_iff {b : UInt8} : isBlank b ↔ isSpace b ∧ b ≠ verticalTab := by
  by_cases h : b = verticalTab
  · subst h
    decide
  · simp [isBlank, isSpace, h, or_assoc]

/-- The text does not begin with a sign. -/
def Unsigned (text : Bytes) : Prop := ∀ b ∈ text.head?, b ≠ '-'.toUInt8 ∧ b ≠ '+'.toUInt8

namespace Sign

/-- The sign that a text begins with, and what stands behind it. -/
def split : Bytes → Sign × Bytes
  | [] => (none, [])
  | b :: rest =>
    if b = '-'.toUInt8 then (minus, rest)
    else if b = '+'.toUInt8 then (plus, rest)
    else (none, b :: rest)

theorem split_append (sign : Sign) {text : Bytes} (h : sign = none → Unsigned text) :
    split (sign.text ++ text) = (sign, text) := by
  cases sign with
  | minus | plus => rfl
  | none =>
    cases text with
    | nil => rfl
    | cons b rest =>
      obtain ⟨hminus, hplus⟩ := h rfl b rfl
      simp only [Sign.text, List.nil_append, split, if_neg hminus, if_neg hplus]

theorem text_append_split (text : Bytes) : (split text).1.text ++ (split text).2 = text := by
  cases text with
  | nil => rfl
  | cons b rest =>
    rw [split]
    split
    · next h => exact h ▸ rfl
    · split
      · next h => exact h ▸ rfl
      · rfl

theorem unsigned_split (text : Bytes) (h : (split text).1 = none) : Unsigned (split text).2 := by
  cases text with
  | nil => exact fun b hb => nomatch hb
  | cons b rest =>
    rw [split] at h ⊢
    split at h
    · cases h
    · next hminus =>
      split at h
      · cases h
      · next hplus =>
        intro c hc
        rw [if_neg hminus, if_neg hplus] at hc
        cases hc
        exact ⟨hminus, hplus⟩

/-- The number with that sign, however great it is. -/
def signed (n : Nat) : Sign → Int
  | minus => -n
  | _ => n

theorem toInt_apply (n : Nat) (sign : Sign) :
    (sign.apply (Int32.ofNat n)).toInt = (sign.signed n).bmod 4294967296 := by
  have hofNat : (Int32.ofNat n).toInt = (n : Int).bmod 4294967296 := Int32.toInt_ofNat'
  cases sign with
  | minus =>
    rw [apply, signed, Int32.toInt_neg, hofNat]
    exact Int.bmod_neg_bmod
  | plus | none => exact hofNat

end Sign

/-- A text in the parts that atoi tells apart. -/
structure IntegerText where
  spaces : Bytes
  sign : Sign
  digits : Bytes
  rest : Bytes
  deriving DecidableEq, Repr

namespace IntegerText

variable {parts : IntegerText} {text : Bytes}

/-- What stands behind the white space. -/
def body (parts : IntegerText) : Bytes := parts.sign.text ++ (parts.digits ++ parts.rest)

/-- The signed value of the digits, which is 0 if there are none. -/
def number (parts : IntegerText) : Int := parts.sign.signed (value parts.digits)

/-- The parts make up the text, and each of them is as long as it can be. -/
structure Divides (parts : IntegerText) (text : Bytes) : Prop where
  text_eq : parts.spaces ++ parts.body = text
  spaces : ∀ b ∈ parts.spaces, isSpace b
  spaces_end : ∀ b ∈ parts.body.head?, ¬ isSpace b
  sign : parts.sign = .none → Unsigned (parts.digits ++ parts.rest)
  digits : ∀ b ∈ parts.digits, isDigit b
  digits_end : ∀ b ∈ parts.rest.head?, ¬ isDigit b

/-- The parts of a text, found from its front. -/
def ofText (text : Bytes) : IntegerText :=
  let (sign, unsigned) := Sign.split (text.dropWhile isSpace)
  ⟨text.takeWhile isSpace, sign, unsigned.takeWhile isDigit, unsigned.dropWhile isDigit⟩

theorem body_ofText (text : Bytes) : (ofText text).body = text.dropWhile isSpace := by
  have hsplit := Sign.text_append_split (text.dropWhile isSpace)
  rwa [← List.takeWhile_append_dropWhile (p := isDigit) (l := (Sign.split _).2)] at hsplit

theorem divides_ofText (text : Bytes) : (ofText text).Divides text where
  text_eq := by
    rw [body_ofText]
    exact List.takeWhile_append_dropWhile
  spaces := fun _ => List.mem_takeWhile_imp
  spaces_end := by
    rw [body_ofText]
    exact not_of_mem_head?_dropWhile
  sign := by
    have hunsigned := Sign.unsigned_split (text.dropWhile isSpace)
    rwa [← List.takeWhile_append_dropWhile (p := isDigit) (l := (Sign.split _).2)] at hunsigned
  digits := fun _ => List.mem_takeWhile_imp
  digits_end := not_of_mem_head?_dropWhile

/-- Every text has these parts and no others. -/
theorem divides_iff : parts.Divides text ↔ parts = ofText text := by
  constructor
  · intro h
    obtain ⟨htake, hdrop⟩ := span_append h.spaces h.spaces_end
    obtain ⟨hdigits, hrest⟩ := span_append h.digits h.digits_end
    have hsign : Sign.split parts.body = (parts.sign, parts.digits ++ parts.rest) :=
      Sign.split_append parts.sign h.sign
    rw [← h.text_eq, ofText, htake, hdrop, hsign]
    simp only [hdigits, hrest]
  · intro h
    exact h ▸ divides_ofText text

/-- Without a vertical tab the number is read, and with one nothing is. -/
theorem Divides.leadingInteger (h : parts.Divides text) : leadingInteger text =
    if verticalTab ∈ parts.spaces then 0 else parts.sign.apply (Int32.ofNat (value parts.digits)) := by
  rw [← h.text_eq]
  by_cases hmem : verticalTab ∈ parts.spaces
  · obtain ⟨front, more, hspaces, hfront⟩ := List.eq_append_cons_of_mem hmem
    have hblanks : ∀ b ∈ front, isBlank b := by
      intro b hb
      have hspace := h.spaces b (hspaces ▸ List.mem_append_left _ hb)
      exact isBlank_iff.2 ⟨hspace, fun heq => hfront (heq ▸ hb)⟩
    have hstop : Bytes.leadingInteger (verticalTab :: (more ++ parts.body)) = 0 :=
      leadingInteger_sign .none fun _ b hb => by cases hb; decide
    rw [if_pos hmem, hspaces, List.append_assoc, leadingInteger_blanks hblanks]
    exact hstop
  · have hblanks : ∀ b ∈ parts.spaces, isBlank b := fun b hb =>
      isBlank_iff.2 ⟨h.spaces b hb, fun heq => hmem (heq ▸ hb)⟩
    rw [if_neg hmem, leadingInteger_blanks hblanks, body, leadingInteger_sign,
      (span_append h.digits h.digits_end).1, wrappedValue_eq]
    intro hnone b hb
    have hspace : ¬ isSpace b := h.spaces_end b (by rw [body, hnone]; exact hb)
    exact ⟨fun hblank => hspace (isBlank_iff.1 hblank).1, h.sign hnone b hb⟩

end IntegerText

/-- The number of a text as atoi reads it, if there were no bound on its numbers. -/
def atoi (text : Bytes) : Int := (IntegerText.ofText text).number

end Bytes

namespace Expansion
open Bytes

/-- A text on the stack is the number that atoi gives, reduced to 32 bits, exactly if no vertical tab
stands in its white space or that number is 0. With a vertical tab there it is 0. -/
theorem Operand.toNumber_eq_atoi_iff (text : Bytes) :
    (∀ parts : IntegerText, parts.Divides text ↔ parts = .ofText text) ∧
    (Operand.string text).toNumber.toInt =
      (if verticalTab ∈ (IntegerText.ofText text).spaces then 0
        else (atoi text).bmod 4294967296) ∧
    ((Operand.string text).toNumber.toInt = (atoi text).bmod 4294967296 ↔
      verticalTab ∉ (IntegerText.ofText text).spaces ∨ (atoi text).bmod 4294967296 = 0) := by
  have hvalue : (Operand.string text).toNumber.toInt =
      (if verticalTab ∈ (IntegerText.ofText text).spaces then 0
        else (atoi text).bmod 4294967296) := by
    have hread := (IntegerText.divides_ofText text).leadingInteger
    rw [Operand.toNumber, hread]
    split
    · rfl
    · exact Sign.toInt_apply _ _
  refine ⟨fun parts => IntegerText.divides_iff, hvalue, ?_⟩
  rw [hvalue]
  split
  · next hmem => simp [hmem, eq_comm]
  · next hmem => simp [hmem]

/-- A vertical tab before a digit. -/
def tabbedDigit : Bytes := [verticalTab, '5'.toUInt8]

theorem Session.expand_tabbedDigit :
    Session.initial.expand (ofAscii "%p1%d") [.string tabbedDigit] = .ok (ofAscii "0", .initial) ∧
      (⟨[verticalTab], .none, ['5'.toUInt8], []⟩ : IntegerText).Divides tabbedDigit ∧
      atoi tabbedDigit = 5 := by
  refine ⟨by decide +kernel, IntegerText.divides_iff.2 (by decide), by decide⟩

end Expansion
end TerminalCaps

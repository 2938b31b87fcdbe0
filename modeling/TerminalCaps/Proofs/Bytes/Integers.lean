import TerminalCaps.Proofs.Bytes.Digits

/-!
The number at the start of a text. Blanks, a sign and digits are read as the signed value of the
digits, wrapped around in 32 bits, whatever stands behind them.
-/
namespace TerminalCaps.Bytes

theorem wrappedValue_eq (digits : Bytes) : wrappedValue digits = Int32.ofNat (value digits) := by
  suffices hfold : ∀ n, digits.foldl (fun n digit => n * 10 + Int32.ofNat (digitValue digit))
      (Int32.ofNat n) = Int32.ofNat (digits.foldl (fun n digit => 10 * n + digitValue digit) n) from
    hfold 0
  induction digits with
  | nil => exact fun n => rfl
  | cons digit digits ih =>
    intro n
    have hstep : Int32.ofNat n * 10 + Int32.ofNat (digitValue digit) =
        Int32.ofNat (10 * n + digitValue digit) := by
      rw [Int32.ofNat_add, Int32.ofNat_mul, Int32.mul_comm]
      rfl
    rw [List.foldl_cons, List.foldl_cons, hstep, ih]

theorem value_replicate_zero_append (count : Nat) (digits : Bytes) :
    value (List.replicate count '0'.toUInt8 ++ digits) = value digits := by
  induction count with
  | zero => rfl
  | succ count ih =>
    rw [List.replicate_succ, List.cons_append, ← ih]
    rfl

/-- The sign before digits, which may be left out. -/
inductive Sign where
  | none
  | plus
  | minus
  deriving DecidableEq, Repr

namespace Sign

def text : Sign → Bytes
  | none => []
  | plus => ['+'.toUInt8]
  | minus => ['-'.toUInt8]

/-- The number with that sign; the least one stays as it is. -/
def apply (n : Int32) : Sign → Int32
  | minus => -n
  | _ => n

end Sign

section Reading

variable {blanks digits rest : Bytes}

/-- A digit is neither blank nor a sign. -/
theorem of_isDigit {b : UInt8} (h : isDigit b) :
    ¬ isBlank b ∧ b ≠ '-'.toUInt8 ∧ b ≠ '+'.toUInt8 := by
  obtain ⟨d, hd, rfl⟩ := exists_digitByte h
  have hall : ∀ d : Fin 10, ¬ isBlank (digitByte d) ∧ digitByte d ≠ '-'.toUInt8 ∧
      digitByte d ≠ '+'.toUInt8 := by decide
  exact hall ⟨d, hd⟩

theorem leadingInteger_blanks (hblanks : ∀ b ∈ blanks, isBlank b) (text : Bytes) :
    leadingInteger (blanks ++ text) = leadingInteger text := by
  rw [leadingInteger, leadingInteger, List.dropWhile_append_of_pos hblanks]

/-- Behind a sign, or instead of it, the digits up to the first other byte are read. -/
theorem leadingInteger_sign (sign : Sign) {body : Bytes} (hbody : sign = .none →
    ∀ b ∈ body.head?, ¬ isBlank b ∧ b ≠ '-'.toUInt8 ∧ b ≠ '+'.toUInt8) :
    leadingInteger (sign.text ++ body) = sign.apply (wrappedValue (body.takeWhile isDigit)) := by
  cases sign with
  | minus | plus =>
    rw [leadingInteger, Sign.text, List.cons_append, List.nil_append,
      List.dropWhile_cons_of_neg (by decide)]
    rfl
  | none =>
    cases body with
    | nil => rfl
    | cons first rest =>
      obtain ⟨hblank, hminus, hplus⟩ := hbody rfl first rfl
      rw [leadingInteger, Sign.text, List.nil_append, List.dropWhile_cons_of_neg hblank]
      simp only [if_neg hminus, if_neg hplus]
      rfl

/-- What stands behind the digits is not read, so long as it is no digit. -/
theorem leadingInteger_append (hblanks : ∀ b ∈ blanks, isBlank b) (sign : Sign)
    (hdigits : ∀ b ∈ digits, isDigit b) (hne : digits ≠ []) (hrest : ∀ b ∈ rest.head?, ¬ isDigit b) :
    leadingInteger (blanks ++ sign.text ++ (digits ++ rest)) =
      sign.apply (Int32.ofNat (value digits)) := by
  have hfirst : ∀ b ∈ (digits ++ rest).head?, ¬ isBlank b ∧ b ≠ '-'.toUInt8 ∧ b ≠ '+'.toUInt8 := by
    obtain ⟨first, more, rfl⟩ := List.exists_cons_of_ne_nil hne
    rintro b ⟨⟩
    exact of_isDigit (hdigits first List.mem_cons_self)
  rw [List.append_assoc, leadingInteger_blanks hblanks, leadingInteger_sign sign fun _ => hfirst,
    (span_append hdigits hrest).1, wrappedValue_eq]

end Reading
end TerminalCaps.Bytes

import TerminalCaps.Bytes.Digits

/-! Decimal digits: how the text of a number is made, and that reading it gives the number. -/
namespace TerminalCaps.Bytes

/-- The byte of a decimal digit. -/
def digitByte (d : Nat) : UInt8 := d.digitChar.toUInt8

theorem digits_ten_eq (n : Nat) : digits 10 n =
    if n < 10 then [digitByte n] else digits 10 (n / 10) ++ [digitByte (n % 10)] := by
  rw [digits, Nat.toDigits_eq_if (by decide)]
  by_cases h : n < 10
  · rw [if_pos h, if_pos h]
    rfl
  · rw [if_neg h, if_neg h, List.map_append]
    rfl

theorem isDigit_digitByte {d : Nat} (h : d < 10) : isDigit (digitByte d) := by
  have hall : ∀ d : Fin 10, isDigit (digitByte d) := by decide
  exact hall ⟨d, h⟩

theorem digitValue_digitByte {d : Nat} (h : d < 10) : digitValue (digitByte d) = d := by
  have hall : ∀ d : Fin 10, digitValue (digitByte d) = d := by decide
  exact hall ⟨d, h⟩

theorem toNat_digitByte {d : Nat} (h : d < 10) : (digitByte d).toNat = 48 + d := by
  have hall : ∀ d : Fin 10, (digitByte d).toNat = 48 + d := by decide
  exact hall ⟨d, h⟩

theorem exists_digitByte {b : UInt8} (h : isDigit b) : ∃ d, d < 10 ∧ b = digitByte d := by
  simp only [isDigit, Bool.and_eq_true, decide_eq_true_eq, UInt8.le_iff_toNat_le] at h
  have hlow : '0'.toUInt8.toNat = 48 := rfl
  have hhigh : '9'.toUInt8.toNat = 57 := rfl
  have hd : b.toNat - 48 < 10 := by omega
  refine ⟨b.toNat - 48, hd, UInt8.toNat_inj.1 ?_⟩
  rw [toNat_digitByte hd]
  omega

theorem isDigit_of_mem_digits {n : Nat} : ∀ b ∈ digits 10 n, isDigit b := by
  induction n using Nat.strongRecOn with
  | ind n ih =>
    rw [digits_ten_eq]
    by_cases h : n < 10
    · rw [if_pos h]
      exact List.forall_mem_singleton.2 (isDigit_digitByte h)
    · rw [if_neg h, List.forall_mem_append, List.forall_mem_singleton]
      exact ⟨ih (n / 10) (by omega), isDigit_digitByte (Nat.mod_lt n (by decide))⟩

/-- A number other than 0 does not begin with a zero. -/
theorem head?_digits_ne_zero {n : Nat} (h : 0 < n) :
    ∀ b ∈ (digits 10 n).head?, b ≠ '0'.toUInt8 := by
  induction n using Nat.strongRecOn with
  | ind n ih =>
    rw [digits_ten_eq]
    by_cases hlt : n < 10
    · rw [if_pos hlt]
      rintro b ⟨⟩ hzero
      have hnat : 48 + n = 48 := (toNat_digitByte hlt).symm.trans (congrArg UInt8.toNat hzero)
      omega
    · have hfirst := ih (n / 10) (by omega) (by omega)
      obtain ⟨b, rest, heq⟩ := List.exists_cons_of_ne_nil (digits_ne_nil 10 (n / 10))
      rw [if_neg hlt, heq]
      rwa [heq] at hfirst

/-- The value of digits, however great it is. -/
def value (digits : Bytes) : Nat := digits.foldl (fun n digit => 10 * n + digitValue digit) 0

theorem value_digits (n : Nat) : value (digits 10 n) = n := by
  induction n using Nat.strongRecOn with
  | ind n ih =>
    rw [digits_ten_eq]
    by_cases h : n < 10
    · rw [if_pos h, value, List.foldl_cons, digitValue_digitByte h]
      exact Nat.zero_add n
    · have hrest := ih (n / 10) (by omega)
      rw [value] at hrest
      rw [if_neg h, value, List.foldl_append, hrest, List.foldl_cons,
        digitValue_digitByte (Nat.mod_lt n (by decide))]
      exact Nat.div_add_mod n 10

/-- The next digit of a number that is kept at the limit: neither the product nor the sum stops before
the exact number passes the limit, and what has stopped there stays there. -/
theorem pushDigit_min (limit n : Nat) (digit : UInt8) :
    pushDigit limit (min limit n) digit = min limit (10 * n + digitValue digit) := by
  have hproduct : saturatingMul limit (min limit n) 10 = min limit (10 * n) := by
    unfold saturatingMul
    omega
  have hsum : saturatingAdd limit (min limit (10 * n)) (digitValue digit) =
      min limit (10 * n + digitValue digit) := by
    unfold saturatingAdd
    omega
  rw [pushDigit, hproduct, hsum]

/-- Keeping a number at the limit digit by digit is keeping it there once, behind the last digit. -/
theorem foldl_pushDigit (limit n : Nat) (digits : Bytes) :
    digits.foldl (pushDigit limit) (min limit n) =
      min limit (digits.foldl (fun n digit => 10 * n + digitValue digit) n) := by
  induction digits generalizing n with
  | nil => rfl
  | cons digit digits ih => rw [List.foldl_cons, List.foldl_cons, pushDigit_min, ih]

/-- Digits are read as their value up to the limit, and as the limit from there on. -/
theorem saturatedValue_eq (limit : Nat) (digits : Bytes) :
    saturatedValue limit digits = min limit (value digits) := by
  have hfold := foldl_pushDigit limit 0 digits
  rwa [Nat.min_zero] at hfold

end TerminalCaps.Bytes

import TerminalCaps.Bytes

/-! Numbers in bytes, lowest byte first: writing them, and reading them back in two's complement. -/
namespace TerminalCaps.Bytes

/-- The lowest bytes of a number in two's complement, lowest first. -/
def littleEndian : (size : Nat) → Int → Bytes
  | 0, _ => []
  | size + 1, n => UInt8.ofNat (n % 256).toNat :: littleEndian size (n / 256)

@[simp] theorem length_littleEndian (size : Nat) (n : Int) : (littleEndian size n).length = size := by
  induction size generalizing n with
  | zero => rfl
  | succ size ih => simp [littleEndian, ih]

private theorem emod_mul_base (n : Int) (p : Nat) :
    n % ((p * 256 : Nat) : Int) = n % 256 + 256 * (n / 256 % (p : Int)) := by
  have hdiv : n / 256 / (p : Int) = n / (256 * p) := Int.ediv_ediv_of_nonneg (by decide)
  have hmul : ((p * 256 : Nat) : Int) = 256 * p := by omega
  rw [hmul, Int.emod_def, Int.emod_def n 256, Int.emod_def (n / 256), hdiv,
    Int.mul_sub, ← Int.mul_assoc]
  omega

/-- The bytes of a number hold it up to a multiple of the number of values they have. -/
theorem foldr_littleEndian (size : Nat) (n : Int) :
    (((littleEndian size n).foldr (fun b high => b.toNat + 256 * high) 0 : Nat) : Int) =
      n % (Nat.pow 256 size : Nat) := by
  induction size generalizing n with
  | zero => exact (Int.emod_one n).symm
  | succ size ih =>
    have hbyte : ((UInt8.ofNat (n % 256).toNat).toNat : Int) = n % 256 := by
      rw [UInt8.toNat_ofNat']
      omega
    rw [littleEndian, List.foldr_cons, Int.natCast_add, Int.natCast_mul, ih, hbyte]
    exact (emod_mul_base n (Nat.pow 256 size)).symm

theorem signed_littleEndian (size : Nat) (n : Int) :
    signed (littleEndian size n) = Int.bmod n (Nat.pow 256 size) := by
  rw [signed, foldr_littleEndian, length_littleEndian, Int.emod_bmod]

/-- Numbers of one size side by side are read back, whatever stands after them. -/
theorem signedList_flatMap {size : Nat} {numbers : List Int}
    (h : ∀ n ∈ numbers, Int.bmod n (Nat.pow 256 size) = n) (rest : Bytes) :
    signedList size numbers.length (numbers.flatMap (littleEndian size) ++ rest) = numbers := by
  induction numbers with
  | nil => rfl
  | cons n numbers ih =>
    have htail := ih fun m hm => h m (List.mem_cons_of_mem n hm)
    rw [List.flatMap_cons, List.length_cons, signedList, List.append_assoc,
      List.take_left' (length_littleEndian size n), List.drop_left' (length_littleEndian size n),
      signed_littleEndian, h n List.mem_cons_self, htail]

end TerminalCaps.Bytes

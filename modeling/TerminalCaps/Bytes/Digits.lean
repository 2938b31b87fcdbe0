import TerminalCaps.Bytes

/-! Numbers written in digits: the text of a number, and the reading of decimal digits. -/
namespace TerminalCaps.Bytes

/-- The digits of a number in a base from 2 to 16, with small letters and no leading zeros. -/
def digits (base n : Nat) : Bytes := (Nat.toDigits base n).map Char.toUInt8

/-- As `digits` in base 16, with capital letters. -/
def capitalHexDigits (n : Nat) : Bytes := (Nat.toDigits 16 n).map fun c => c.toUpper.toUInt8

theorem digits_ne_nil (base n : Nat) : digits base n ≠ [] := by
  simp [digits, Nat.toDigits_ne_nil]

/-- Leading zeros up to a least number of digits. -/
def zeroExtend (least : Nat) (digits : Bytes) : Bytes :=
  List.replicate (least - digits.length) '0'.toUInt8 ++ digits

/-- The decimal text of a signed number. -/
def decimal (n : Int) : Bytes :=
  if n < 0 then '-'.toUInt8 :: digits 10 n.natAbs else digits 10 n.natAbs

def isDigit (b : UInt8) : Bool := '0'.toUInt8 ≤ b && b ≤ '9'.toUInt8

def digitValue (b : UInt8) : Nat := b.toNat - '0'.toNat

/-- A product that stops at `limit`. -/
def saturatingMul (limit m n : Nat) : Nat := min limit (m * n)

/-- A sum that stops at `limit`. -/
def saturatingAdd (limit m n : Nat) : Nat := min limit (m + n)

/-- A number with one more digit. The product and the sum each stop at `limit`. -/
def pushDigit (limit n : Nat) (digit : UInt8) : Nat :=
  saturatingAdd limit (saturatingMul limit n 10) (digitValue digit)

/-- The value of decimal digits, at most `limit`. -/
def saturatedValue (limit : Nat) (digits : Bytes) : Nat := digits.foldl (pushDigit limit) 0

theorem saturatedValue_le (limit : Nat) (digits : Bytes) :
    saturatedValue limit digits ≤ limit := by
  suffices ∀ n ≤ limit, digits.foldl (pushDigit limit) n ≤ limit from this 0 (Nat.zero_le _)
  induction digits with
  | nil => simp
  | cons d rest ih => exact fun n _ => ih _ (Nat.min_le_left ..)

/-- Blank bytes that may stand before a number. -/
def isBlank (b : UInt8) : Bool := b = 0x20 || b = 0x09 || b = 0x0A || b = 0x0C || b = 0x0D

/-- The value of decimal digits in 32 bits, where a greater one wraps around. -/
def wrappedValue (digits : Bytes) : Int32 :=
  digits.foldl (fun n digit => n * 10 + Int32.ofNat (digitValue digit)) 0

/-- The number at the start of a text, after blanks and one sign; 0 if there is none. -/
def leadingInteger (text : Bytes) : Int32 :=
  match text.dropWhile isBlank with
  | [] => 0
  | sign :: rest =>
    if sign = '-'.toUInt8 then -wrappedValue (rest.takeWhile isDigit)
    else if sign = '+'.toUInt8 then wrappedValue (rest.takeWhile isDigit)
    else wrappedValue ((sign :: rest).takeWhile isDigit)

end TerminalCaps.Bytes

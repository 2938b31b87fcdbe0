import Mathlib.Tactic.IntervalCases
import TerminalCaps.Proofs.Bytes.Digits
import TerminalCaps.Template.Program

/-!
Numbers in a template: constants, widths and precisions. All of their digits are read, and the number
is the value of the digits, or the greatest one of its kind if that value is greater.
-/
namespace TerminalCaps.Template

theorem ofByte?_digitByte {d : Nat} (h : d < 10) :
    Conversion.ofByte? (Bytes.digitByte d) = none := by
  have hall : ∀ d : Fin 10, Conversion.ofByte? (Bytes.digitByte d) = none := by decide
  exact hall ⟨d, h⟩

section Sizes

variable {spec : FieldSpec} {part : FieldPart} {digits rest : Bytes}

theorem readField_extend {b : UInt8} {next : FieldPart} {spec' : FieldSpec}
    (hletter : Conversion.ofByte? b = none) (h : spec.extend? part b = some (next, spec')) :
    readField part spec (b :: rest) = readField next spec' rest := by
  rw [readField, hletter, h]

/-- In a part where a digit is pushed to a size, all digits are. -/
theorem readField_digits {sized : UInt16 → FieldSpec} {size : UInt16}
    (hpush : ∀ size d, d < 10 → (sized size).extend? part (Bytes.digitByte d) =
      some (part, sized (pushSizeDigit size (Bytes.digitByte d))))
    (hdigits : ∀ b ∈ digits, Bytes.isDigit b) :
    readField part (sized size) (digits ++ rest) =
      readField part (sized (digits.foldl pushSizeDigit size)) rest := by
  induction digits generalizing size with
  | nil => rfl
  | cons b digits ih =>
    obtain ⟨hb, hmore⟩ := List.forall_mem_cons.1 hdigits
    obtain ⟨d, hd, rfl⟩ := Bytes.exists_digitByte hb
    rw [List.cons_append, readField_extend (ofByte?_digitByte hd) (hpush size d hd), ih hmore,
      List.foldl_cons]

theorem readField_width {width : UInt16} (hdigits : ∀ b ∈ digits, Bytes.isDigit b) :
    readField .width { spec with width } (digits ++ rest) =
      readField .width { spec with width := digits.foldl pushSizeDigit width } rest := by
  have hpush : ∀ width d, d < 10 → { spec with width }.extend? .width (Bytes.digitByte d) =
      some (.width, { spec with width := pushSizeDigit width (Bytes.digitByte d) }) := by
    intro width d hd
    interval_cases d <;> rfl
  exact readField_digits hpush hdigits

theorem readField_precision {precision : UInt16} (hdigits : ∀ b ∈ digits, Bytes.isDigit b) :
    readField .precision { spec with precision := some precision } (digits ++ rest) =
      readField .precision { spec with precision := some (digits.foldl pushSizeDigit precision) }
        rest := by
  have hpush : ∀ precision d, d < 10 →
      { spec with precision := some precision }.extend? .precision (Bytes.digitByte d) =
        some (.precision, { spec with
          precision := some (pushSizeDigit precision (Bytes.digitByte d)) }) := by
    intro precision d hd
    interval_cases d <;> rfl
  exact readField_digits hpush hdigits

/-- A width does not begin with a zero, which would be a flag. It may have no digits at all. -/
theorem readField_flags_digits (hwidth : spec.width = 0) (hdigits : ∀ b ∈ digits, Bytes.isDigit b)
    (hfirst : ∀ b ∈ digits.head?, b ≠ '0'.toUInt8) :
    ∃ part, (part = .flags ∨ part = .width) ∧ ∀ rest,
      readField .flags spec (digits ++ rest) =
        readField part { spec with width := digits.foldl pushSizeDigit 0 } rest := by
  cases digits with
  | nil =>
    refine ⟨.flags, .inl rfl, fun rest => ?_⟩
    rw [List.foldl_nil, ← hwidth]
    rfl
  | cons b digits =>
    refine ⟨.width, .inr rfl, fun rest => ?_⟩
    obtain ⟨hb, hmore⟩ := List.forall_mem_cons.1 hdigits
    obtain ⟨d, hd, rfl⟩ := Bytes.exists_digitByte hb
    have hpos : 0 < d := Nat.pos_of_ne_zero fun hzero => hfirst _ rfl (hzero ▸ rfl)
    have hextend : spec.extend? .flags (Bytes.digitByte d) =
        some (.width, { spec with width := pushSizeDigit 0 (Bytes.digitByte d) }) := by
      interval_cases d <;> rfl
    rw [List.cons_append, readField_extend (ofByte?_digitByte hd) hextend, readField_width hmore]
    rfl

/-- A precision has its digits behind a point, and may have none. -/
theorem readField_point_digits (hpart : part = .flags ∨ part = .width)
    (hdigits : ∀ b ∈ digits, Bytes.isDigit b) :
    readField part spec ('.'.toUInt8 :: (digits ++ rest)) =
      readField .precision { spec with precision := some (digits.foldl pushSizeDigit 0) } rest := by
  have hextend : spec.extend? part '.'.toUInt8 =
      some (.precision, { spec with precision := some 0 }) := by
    rcases hpart with rfl | rfl <;> rfl
  rw [readField_extend rfl hextend, readField_precision hdigits]

theorem toNat_pushSizeDigit (size : UInt16) (digit : UInt8) :
    (pushSizeDigit size digit).toNat = Bytes.pushDigit 65535 size.toNat digit := by
  have hle : Bytes.pushDigit 65535 size.toNat digit ≤ 65535 := Nat.min_le_left _ _
  rw [pushSizeDigit, UInt16.toNat_ofNat_of_lt' (Nat.lt_succ_of_le hle)]

/-- A size is the value of its digits up to 65535, and 65535 from there on. -/
theorem toNat_foldl_pushSizeDigit (digits : Bytes) :
    (digits.foldl pushSizeDigit 0).toNat = min 65535 (Bytes.value digits) := by
  suffices hfold : ∀ size : UInt16, (digits.foldl pushSizeDigit size).toNat =
      digits.foldl (Bytes.pushDigit 65535) size.toNat from
    (hfold 0).trans (Bytes.saturatedValue_eq 65535 digits)
  induction digits with
  | nil => exact fun size => rfl
  | cons digit digits ih =>
    intro size
    rw [List.foldl_cons, List.foldl_cons, ih, toNat_pushSizeDigit]

end Sizes

/-- A constant ends at its brace: all digits before it are read, and nothing behind it. -/
theorem readNumber_append {digits : Bytes} (h : ∀ b ∈ digits, Bytes.isDigit b) (rest : Bytes) :
    readNumber (digits ++ '\x7d'.toUInt8 :: rest) =
      (some (.operation (.pushNumber (Int32.ofNat (min maxNumber (Bytes.value digits))))), rest) := by
  have hbrace : ∀ b ∈ ('\x7d'.toUInt8 :: rest).head?, ¬ Bytes.isDigit b := by
    rintro b ⟨⟩
    decide
  obtain ⟨htake, hdrop⟩ := Bytes.span_append h hbrace
  rw [readNumber, htake, hdrop, Bytes.saturatedValue_eq]
  rfl

/-- A template that is one escape. -/
theorem compile_escape {escape : Bytes} {op : Operation}
    (h : readEscape escape = (some (.operation op), [])) :
    Program.compile ('%'.toUInt8 :: escape) = ⟨#[.operation op]⟩ := by
  rw [Program.compile, readInstructions_percent, h, readInstructions]
  rfl

/-- Digits, however many they are, become one number of the program: their value, or the greatest
constant, width or precision if the value is greater than that. A width must not begin with a zero. The
program has no other instruction, so none of the digits is left as text. -/
theorem compile_numeral (digits : Bytes) (hdigits : ∀ b ∈ digits, Bytes.isDigit b) :
    (∃ number : Int32, number.toInt = min (Bytes.value digits : Int) 2147483647 ∧
      Program.compile (Bytes.ofAscii "%\x7b" ++ digits ++ Bytes.ofAscii "\x7d") =
        ⟨#[.operation (.pushNumber number)]⟩) ∧
    ((∀ b ∈ digits.head?, b ≠ '0'.toUInt8) →
      ∃ width : UInt16, width.toNat = min (Bytes.value digits) 65535 ∧
        Program.compile (Bytes.ofAscii "%:" ++ digits ++ Bytes.ofAscii "d") =
          ⟨#[.operation (.field .decimal { width })]⟩) ∧
    ∃ precision : UInt16, precision.toNat = min (Bytes.value digits) 65535 ∧
      Program.compile (Bytes.ofAscii "%." ++ digits ++ Bytes.ofAscii "d") =
        ⟨#[.operation (.field .decimal { precision := some precision })]⟩ := by
  have hsize : (digits.foldl pushSizeDigit 0).toNat = min (Bytes.value digits) 65535 := by
    rw [toNat_foldl_pushSizeDigit, Nat.min_comm]
  refine ⟨⟨Int32.ofNat (min maxNumber (Bytes.value digits)), ?_, ?_⟩,
    fun hfirst => ⟨digits.foldl pushSizeDigit 0, hsize, ?_⟩,
    digits.foldl pushSizeDigit 0, hsize, ?_⟩
  · have hle : min maxNumber (Bytes.value digits) ≤ maxNumber := Nat.min_le_left _ _
    rw [Int32.toInt_ofNat_of_lt (Nat.lt_succ_of_le hle), maxNumber]
    omega
  · exact compile_escape (readNumber_append hdigits [])
  · obtain ⟨part, -, hread⟩ := @readField_flags_digits { } digits rfl hdigits hfirst
    -- The letter ends the field in every part of its layout.
    exact compile_escape (hread ['d'.toUInt8])
  · exact compile_escape (readField_point_digits (.inl rfl) hdigits)

/-- The first value that is too great for a constant, and far too great for a size. -/
def tooGreat : Bytes := Bytes.ofAscii "2147483648"

theorem compile_numeral_tooGreat :
    (∀ b ∈ tooGreat, Bytes.isDigit b) ∧ (∀ b ∈ tooGreat.head?, b ≠ '0'.toUInt8) ∧
      Bytes.value tooGreat = 2147483648 ∧
      Program.compile (Bytes.ofAscii "%\x7b" ++ tooGreat ++ Bytes.ofAscii "\x7d") =
        ⟨#[.operation (.pushNumber Int32.maxValue)]⟩ ∧
      Program.compile (Bytes.ofAscii "%:" ++ tooGreat ++ Bytes.ofAscii "d") =
        ⟨#[.operation (.field .decimal { width := 65535 })]⟩ ∧
      Program.compile (Bytes.ofAscii "%." ++ tooGreat ++ Bytes.ofAscii "d") =
        ⟨#[.operation (.field .decimal { precision := some 65535 })]⟩ := by
  have hdigits : ∀ b ∈ tooGreat, Bytes.isDigit b := List.all_eq_true.1 (by decide)
  have hfirst : ∀ b ∈ tooGreat.head?, b ≠ '0'.toUInt8 := by
    rintro b ⟨⟩
    decide
  have hvalue : Bytes.value tooGreat = 2147483648 := by decide
  obtain ⟨⟨number, hnumber, hconstant⟩, hwidths, precision, hprecision, hpoint⟩ :=
    compile_numeral tooGreat hdigits
  obtain ⟨width, hwidth, hfield⟩ := hwidths hfirst
  rw [hvalue] at hnumber hwidth hprecision
  obtain rfl : number = Int32.maxValue := Int32.toInt_inj.1 hnumber
  obtain rfl : width = 65535 := UInt16.toNat_inj.1 hwidth
  obtain rfl : precision = 65535 := UInt16.toNat_inj.1 hprecision
  exact ⟨hdigits, hfirst, hvalue, hconstant, hfield, hpoint⟩

end TerminalCaps.Template

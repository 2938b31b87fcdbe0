import Mathlib.Data.List.Chain
import TerminalCaps.Proofs.Template.Numerals

/-!
The written form of instructions. Every escape is read back up to its last byte and no further, so
that a program is read back from what its instructions are written as.
-/
namespace TerminalCaps.Template

def Conversion.letter : Conversion → Char
  | .decimal => 'd'
  | .octal => 'o'
  | .hex => 'x'
  | .capitalHex => 'X'
  | .string => 's'

def BinaryOp.letter : BinaryOp → Char
  | .add => '+'
  | .subtract => '-'
  | .multiply => '*'
  | .divide => '/'
  | .remainder => 'm'
  | .bitAnd => '&'
  | .bitOr => '|'
  | .bitXor => '^'
  | .equal => '='
  | .less => '<'
  | .greater => '>'
  | .and => 'A'
  | .or => 'O'

def UnaryOp.letter : UnaryOp → Char
  | .not => '!'
  | .complement => '~'

def Variable.letter : Variable → UInt8
  | .static letter => UInt8.ofNat ('A'.toNat + letter)
  | .dynamic letter => UInt8.ofNat ('a'.toNat + letter)

namespace FieldSpec

variable (spec : FieldSpec)

def flagBytes : Bytes :=
  (if spec.alternate then ['#'.toUInt8] else []) ++ (if spec.left then ['-'.toUInt8] else []) ++
    (if spec.plus then ['+'.toUInt8] else []) ++ (if spec.space then [' '.toUInt8] else []) ++
    (if spec.zero then ['0'.toUInt8] else [])

def widthBytes : Bytes := if spec.width = 0 then [] else Bytes.digits 10 spec.width.toNat

def precisionBytes : Bytes :=
  match spec.precision with
  | none => []
  | some precision => '.'.toUInt8 :: Bytes.digits 10 precision.toNat

end FieldSpec

/-- What stands after the percent sign. A literal has none. -/
def Operation.escape : Operation → Bytes
  | .literal _ => []
  | .percent => ['%'.toUInt8]
  | .increment => ['i'.toUInt8]
  | .character => ['c'.toUInt8]
  | .field conversion spec => ':'.toUInt8 ::
      (spec.flagBytes ++ (spec.widthBytes ++ (spec.precisionBytes ++ [conversion.letter.toUInt8])))
  | .pushParameter index => ['p'.toUInt8, UInt8.ofNat ('1'.toNat + index)]
  | .pushNumber value => '\x7b'.toUInt8 :: (Bytes.digits 10 value.toInt.toNat ++ ['\x7d'.toUInt8])
  | .pushCharacter code => ['\''.toUInt8, code, '\''.toUInt8]
  | .store target => ['P'.toUInt8, target.letter]
  | .load source => ['g'.toUInt8, source.letter]
  | .length => ['l'.toUInt8]
  | .binary op => [op.letter.toUInt8]
  | .unary op => [op.letter.toUInt8]

namespace Instruction

def escape : Instruction → Bytes
  | .operation op => op.escape
  | .ifStart => ['?'.toUInt8]
  | .thenJump _ => ['t'.toUInt8]
  | .elseJump _ => ['e'.toUInt8]
  | .ifEnd => [';'.toUInt8]

def print : Instruction → Bytes
  | .operation (.literal text) => text
  | instruction => '%'.toUInt8 :: instruction.escape

/-- The instruction as it is before linking. -/
def unlinked : Instruction → Instruction
  | .thenJump _ => .thenJump none
  | .elseJump _ => .elseJump none
  | instruction => instruction

def IsLiteral (instruction : Instruction) : Prop := ∃ text, instruction = .operation (.literal text)

/-- What can be written: a literal has bytes, but none that begins an escape, and a number that is
pushed is not negative. -/
def Writable : Instruction → Prop
  | .operation (.literal text) => text ≠ [] ∧ '%'.toUInt8 ∉ text
  | .operation (.pushNumber value) => 0 ≤ value
  | _ => True

end Instruction

/-- What can be written one after another: no two literals come together. -/
structure Printable (code : List Instruction) : Prop where
  writable : ∀ instruction ∈ code, instruction.Writable
  separated : code.IsChain fun first second => ¬ (first.IsLiteral ∧ second.IsLiteral)

theorem ofByte?_letter (v : Variable) : Variable.ofByte? v.letter = some v := by
  cases v with
  | static letter =>
    revert letter
    decide
  | dynamic letter =>
    revert letter
    decide

section Fields

variable {spec : FieldSpec} {part : FieldPart}

theorem readField_letter (conversion : Conversion) (rest : Bytes) :
    readField part spec (conversion.letter.toUInt8 :: rest) =
      (some (.operation (.field conversion spec)), rest) := by
  cases conversion <;> rfl

/-- A size is read back from its digits. -/
theorem foldl_pushSizeDigit_digits (size : UInt16) :
    (Bytes.digits 10 size.toNat).foldl pushSizeDigit 0 = size := by
  have hle : size.toNat ≤ 65535 := Nat.le_of_lt_succ size.toNat_lt
  apply UInt16.toNat_inj.1
  rw [toNat_foldl_pushSizeDigit, Bytes.value_digits, Nat.min_eq_right hle]

theorem readField_flagBytes (spec : FieldSpec) (rest : Bytes) :
    readField .flags { } (spec.flagBytes ++ rest) =
      readField .flags { spec with width := 0, precision := none } rest := by
  obtain ⟨width, precision, alternate, left, plus, space, zero⟩ := spec
  cases alternate <;> cases left <;> cases plus <;> cases space <;> cases zero <;> rfl

theorem readField_widthBytes (h : spec.width = 0) (width : UInt16) :
    ∃ part, (part = .flags ∨ part = .width) ∧ ∀ rest,
      readField .flags spec (FieldSpec.widthBytes { spec with width } ++ rest) =
        readField part { spec with width } rest := by
  unfold FieldSpec.widthBytes
  by_cases hzero : width = 0
  · refine ⟨.flags, .inl rfl, fun rest => ?_⟩
    rw [if_pos hzero, hzero, ← h]
    rfl
  · have hpos : 0 < width.toNat :=
      Nat.pos_of_ne_zero fun hnat => hzero (UInt16.toNat_inj.1 hnat)
    have hread := readField_flags_digits h Bytes.isDigit_of_mem_digits (Bytes.head?_digits_ne_zero hpos)
    rw [foldl_pushSizeDigit_digits] at hread
    rw [if_neg hzero]
    exact hread

theorem readField_precisionBytes (hpart : part = .flags ∨ part = .width)
    (hspec : spec.precision = none) (precision : Option UInt16) :
    ∃ next, ∀ rest, readField part spec (FieldSpec.precisionBytes { spec with precision } ++ rest) =
      readField next { spec with precision } rest := by
  cases precision with
  | none =>
    refine ⟨part, fun rest => ?_⟩
    obtain ⟨width, precision, alternate, left, plus, space, zero⟩ := spec
    cases hspec
    rfl
  | some precision =>
    refine ⟨.precision, fun rest => ?_⟩
    rw [FieldSpec.precisionBytes, List.cons_append, readField_point_digits hpart
      Bytes.isDigit_of_mem_digits, foldl_pushSizeDigit_digits]

/-- The layout of a field is read back from its flags, width and precision. -/
theorem readField_bytes (conversion : Conversion) (spec : FieldSpec) (rest : Bytes) :
    readField .flags { } (spec.flagBytes ++ (spec.widthBytes ++ (spec.precisionBytes ++
      conversion.letter.toUInt8 :: rest))) = (some (.operation (.field conversion spec)), rest) := by
  obtain ⟨part, hpart, hwidth⟩ :=
    @readField_widthBytes { spec with width := 0, precision := none } rfl spec.width
  obtain ⟨next, hprecision⟩ :=
    @readField_precisionBytes { spec with precision := none } part hpart rfl spec.precision
  calc readField .flags { } _
    _ = readField .flags { spec with width := 0, precision := none } _ := readField_flagBytes spec _
    _ = readField part { spec with precision := none } _ := hwidth _
    _ = readField next spec _ := hprecision _
    _ = _ := readField_letter conversion rest

end Fields

theorem readNumber_digits {value : Int32} (h : 0 ≤ value) (rest : Bytes) :
    readNumber (Bytes.digits 10 value.toInt.toNat ++ '\x7d'.toUInt8 :: rest) =
      (some (.operation (.pushNumber value)), rest) := by
  have hle : value.toInt.toNat ≤ maxNumber := Nat.le_of_lt_succ value.toNatClampNeg_lt
  have hback : Int32.ofNat value.toInt.toNat = value := Int32.ofNat_toNatClampNeg value h
  rw [readNumber_append Bytes.isDigit_of_mem_digits, Bytes.value_digits, Nat.min_eq_right hle, hback]

theorem readParameter_digit (index : Fin 9) (rest : Bytes) :
    readParameter (UInt8.ofNat ('1'.toNat + index) :: rest) =
      (some (.operation (.pushParameter index)), rest) := by
  obtain ⟨index, hindex⟩ := index
  interval_cases index <;> rfl

/-- An escape is read up to its last byte. -/
theorem readEscape_escape {i : Instruction} (hwritable : i.Writable) (hliteral : ¬ i.IsLiteral)
    (rest : Bytes) : readEscape (i.escape ++ rest) = (some i.unlinked, rest) := by
  cases i with
  | ifStart => rfl
  | thenJump target => rfl
  | elseJump target => rfl
  | ifEnd => rfl
  | operation op =>
    cases op with
    | literal text => exact absurd ⟨text, rfl⟩ hliteral
    | percent => rfl
    | increment => rfl
    | character => rfl
    | field conversion spec =>
      have hfield := readField_bytes conversion spec rest
      simp only [Instruction.escape, Operation.escape, List.cons_append, List.append_assoc,
        List.nil_append]
      exact hfield
    | pushParameter index => exact readParameter_digit index rest
    | pushNumber value =>
      have hnumber := readNumber_digits hwritable rest
      simp only [Instruction.escape, Operation.escape, List.cons_append, List.append_assoc,
        List.nil_append]
      exact hnumber
    | pushCharacter code => rfl
    | store target =>
      change readVariable .store (target.letter :: rest) = _
      rw [readVariable, ofByte?_letter]
      rfl
    | load source =>
      change readVariable .load (source.letter :: rest) = _
      rw [readVariable, ofByte?_letter]
      rfl
    | length => rfl
    | binary op => cases op <;> rfl
    | unary op => cases op <;> rfl

/-- Text ends at the next percent sign. -/
theorem span_text {text rest : Bytes} (htext : '%'.toUInt8 ∉ text)
    (hrest : ∀ b ∈ rest.head?, b = '%'.toUInt8) :
    (text ++ rest).takeWhile (· != '%'.toUInt8) = text ∧
      (text ++ rest).dropWhile (· != '%'.toUInt8) = rest := by
  apply Bytes.span_append
  · exact fun b hb => bne_iff_ne.2 (ne_of_mem_of_not_mem hb htext)
  · exact fun b hb => by simp [hrest b hb]

/-- A literal reaches up to the next percent sign. -/
theorem readInstructions_literal {text rest : Bytes} (htext : text ≠ []) (h : '%'.toUInt8 ∉ text)
    (hrest : ∀ b ∈ rest.head?, b = '%'.toUInt8) : readInstructions (text ++ rest) =
      .operation (.literal text) :: readInstructions rest := by
  obtain ⟨b, text, rfl⟩ := List.exists_cons_of_ne_nil htext
  rw [List.mem_cons, not_or] at h
  obtain ⟨htake, hdrop⟩ := span_text h.2 hrest
  rw [List.cons_append, readInstructions, if_neg (Ne.symm h.1), htake, hdrop]

theorem Instruction.print_of_not_literal {i : Instruction} (h : ¬ i.IsLiteral) :
    i.print = '%'.toUInt8 :: i.escape := by
  unfold print
  split
  · exact absurd ⟨_, rfl⟩ h
  · rfl

/-- Instructions are read back from what they are written as. -/
theorem readInstructions_print {code : List Instruction} (h : Printable code) :
    readInstructions (code.flatMap Instruction.print) = code.map Instruction.unlinked := by
  induction code with
  | nil =>
    rw [List.flatMap_nil, readInstructions]
    rfl
  | cons first code ih =>
    obtain ⟨hfirst, hwritable⟩ := List.forall_mem_cons.1 h.writable
    have hcode := ih ⟨hwritable, h.separated.tail⟩
    rw [List.flatMap_cons, List.map_cons, ← hcode]
    by_cases hliteral : first.IsLiteral
    · obtain ⟨text, rfl⟩ := hliteral
      apply readInstructions_literal hfirst.1 hfirst.2
      cases code with
      | nil => exact fun b hb => by cases hb
      | cons second code =>
        have hsecond : ¬ second.IsLiteral := fun hsecond =>
          (List.isChain_cons_cons.1 h.separated).1 ⟨⟨text, rfl⟩, hsecond⟩
        rw [List.flatMap_cons, Instruction.print_of_not_literal hsecond]
        rintro b ⟨⟩
        rfl
    · rw [Instruction.print_of_not_literal hliteral, List.cons_append, readInstructions_percent,
        readEscape_escape hfirst hliteral]
      rfl

/-- A program is compiled from what its instructions are written as. -/
theorem compile_print (code : List Instruction) (h : Printable code) :
    Program.compile (code.flatMap Instruction.print) =
      ⟨(link (code.map Instruction.unlinked)).toArray⟩ := by
  rw [Program.compile, readInstructions_print h]

/-- A conditional with a field and constants, and targets that the written form does not show. -/
def mixedCode : List Instruction :=
  [.operation (.literal ['7'.toUInt8]), .ifStart, .operation (.pushParameter (Fin.last 8)),
    .thenJump (some 3), .operation (.field .hex
      { width := 7, precision := some 3, alternate := true, left := true, zero := true }),
    .elseJump none, .operation (.pushNumber Int32.maxValue), .operation (.pushCharacter '%'.toUInt8),
    .operation (.binary .add), .ifEnd, .operation (.store (.dynamic (Fin.last 25))),
    .operation (.literal [0x1B, 'd'.toUInt8])]

theorem mixedCode_printable : Printable mixedCode where
  writable := by simp [mixedCode, Instruction.Writable]; decide
  separated := by simp [mixedCode, Instruction.IsLiteral]

theorem compile_print_mixedCode : Printable mixedCode ∧
    mixedCode.flatMap Instruction.print =
      Bytes.ofAscii "7%?%p9%t%:#-07.3x%e%\x7b2147483647\x7d%'%'%+%;%Pz\x1bd" ∧
    Program.compile (mixedCode.flatMap Instruction.print) =
      ⟨(link (mixedCode.map Instruction.unlinked)).toArray⟩ :=
  ⟨mixedCode_printable, by decide, compile_print mixedCode mixedCode_printable⟩

end TerminalCaps.Template

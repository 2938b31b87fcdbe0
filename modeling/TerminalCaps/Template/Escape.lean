import TerminalCaps.Bytes.Digits
import TerminalCaps.Template.Instruction

/-!
Reading the escapes of a parameterized string. Every reader returns what it read together with the
bytes it left; an escape that is malformed uses up its bytes and stands for nothing.
-/
namespace TerminalCaps.Template

/-- What an escape stands for, if anything, and the bytes after it. -/
abbrev Reading := Option Instruction × Bytes

def Conversion.ofByte? (b : UInt8) : Option Conversion :=
  match Char.ofUInt8 b with
  | 'd' => some .decimal
  | 'o' => some .octal
  | 'x' => some .hex
  | 'X' => some .capitalHex
  | 's' => some .string
  | _ => none

def BinaryOp.ofByte? (b : UInt8) : Option BinaryOp :=
  match Char.ofUInt8 b with
  | '+' => some .add
  | '-' => some .subtract
  | '*' => some .multiply
  | '/' => some .divide
  | 'm' => some .remainder
  | '&' => some .bitAnd
  | '|' => some .bitOr
  | '^' => some .bitXor
  | '=' => some .equal
  | '<' => some .less
  | '>' => some .greater
  | 'A' => some .and
  | 'O' => some .or
  | _ => none

def UnaryOp.ofByte? (b : UInt8) : Option UnaryOp :=
  match Char.ofUInt8 b with
  | '!' => some .not
  | '~' => some .complement
  | _ => none

/-- The position of a byte in an alphabet of 26 letters that begins with `first`. -/
def letterIndex? (first : Char) (b : UInt8) : Option (Fin 26) :=
  if h : first.toNat ≤ b.toNat ∧ b.toNat < first.toNat + 26 then
    some ⟨b.toNat - first.toNat, by omega⟩
  else none

def Variable.ofByte? (b : UInt8) : Option Variable :=
  (letterIndex? 'A' b).map .static <|> (letterIndex? 'a' b).map .dynamic

/-- The bytes without the given one at their start. -/
def skip (expected : Char) : Bytes → Bytes
  | [] => []
  | b :: rest => if b = expected.toUInt8 then rest else b :: rest

/-- The rest of `%p`: a parameter from 1 to 9, and 0 in place of any other. -/
def readParameter : Bytes → Reading
  | [] => (none, [])
  | b :: rest =>
    if h : '1'.toNat ≤ b.toNat ∧ b.toNat ≤ '9'.toNat then
      (some (.operation (.pushParameter ⟨b.toNat - '1'.toNat, by
        simp only [Char.reduceToNat] at h ⊢; omega⟩)), rest)
    else (some (.operation (.pushNumber 0)), rest)

/-- The rest of `%P` or `%g`: a letter. -/
def readVariable (operation : Variable → Operation) : Bytes → Reading
  | [] => (none, [])
  | b :: rest => ((Variable.ofByte? b).map fun v => .operation (operation v), rest)

/-- The rest of `%'`: any byte, and the closing quote, which may be missing. -/
def readCharacter : Bytes → Reading
  | [] => (none, [])
  | b :: rest => (some (.operation (.pushCharacter b)), skip '\'' rest)

/-- The greatest number that a template can hold. -/
def maxNumber : Nat := 2147483647

/-- The rest of `%{`: digits, and the closing brace, which may be missing. -/
def readNumber (bytes : Bytes) : Reading :=
  let value := Bytes.saturatedValue maxNumber (bytes.takeWhile Bytes.isDigit)
  (some (.operation (.pushNumber (Int32.ofNat value))), skip '}' (bytes.dropWhile Bytes.isDigit))

/-- The part of a field's layout that is being read. -/
inductive FieldPart where
  | flags | width | precision
  deriving DecidableEq, Repr

/-- A width or a precision with one more digit; both stop at 65535. -/
def pushSizeDigit (size : UInt16) (digit : UInt8) : UInt16 :=
  UInt16.ofNat (Bytes.pushDigit 65535 size.toNat digit)

/-- The layout after one more byte, `none` when the byte is out of place. -/
def FieldSpec.extend? (spec : FieldSpec) : FieldPart → UInt8 → Option (FieldPart × FieldSpec)
  | .flags, b =>
    match Char.ofUInt8 b with
    | '#' => some (.flags, { spec with alternate := true })
    | '-' => some (.flags, { spec with left := true })
    | '+' => some (.flags, { spec with plus := true })
    | ' ' => some (.flags, { spec with space := true })
    | '0' => some (.flags, { spec with zero := true })
    | '.' => some (.precision, { spec with precision := some 0 })
    | _ =>
      if Bytes.isDigit b then some (.width, { spec with width := pushSizeDigit 0 b }) else none
  | .width, b =>
    if b = '.'.toUInt8 then some (.precision, { spec with precision := some 0 })
    else if Bytes.isDigit b then some (.width, { spec with width := pushSizeDigit spec.width b })
    else none
  | .precision, b =>
    if Bytes.isDigit b then
      some (.precision, { spec with precision := spec.precision.map (pushSizeDigit · b) })
    else none

/-- The rest of a field's layout and its conversion. -/
def readField (part : FieldPart) (spec : FieldSpec) : Bytes → Reading
  | [] => (none, [])
  | b :: rest =>
    match Conversion.ofByte? b with
    | some conversion => (some (.operation (.field conversion spec)), rest)
    | none =>
      match spec.extend? part b with
      | some (part, spec) => readField part spec rest
      | none => (none, rest)

/-- The escapes of a single byte after the percent sign. -/
def singleByteEscape? (b : UInt8) : Option Instruction :=
  match Char.ofUInt8 b with
  | '%' => some (.operation .percent)
  | 'i' => some (.operation .increment)
  | 'c' => some (.operation .character)
  | 'l' => some (.operation .length)
  | '?' => some .ifStart
  | 't' => some (.thenJump none)
  | 'e' => some (.elseJump none)
  | ';' => some .ifEnd
  | _ =>
    (Conversion.ofByte? b).map (fun conversion => .operation (.field conversion { }))
    <|> (BinaryOp.ofByte? b).map (fun op => .operation (.binary op))
    <|> (UnaryOp.ofByte? b).map (fun op => .operation (.unary op))

/-- The escape that follows a percent sign. -/
def readEscape : Bytes → Reading
  | [] => (none, [])
  | b :: rest =>
    match Char.ofUInt8 b with
    | 'p' => readParameter rest
    | 'P' => readVariable .store rest
    | 'g' => readVariable .load rest
    | '\'' => readCharacter rest
    | '\x7b' => readNumber rest
    | ':' => readField .flags { } rest
    | '#' | ' ' | '.' => readField .flags { } (b :: rest)
    | _ =>
      if Bytes.isDigit b then readField .flags { } (b :: rest)
      else (singleByteEscape? b, rest)

/-! An escape is read from the front: the bytes left are the last ones of those given. -/

theorem skip_suffix (expected : Char) (bytes : Bytes) : skip expected bytes <:+ bytes := by
  cases bytes with
  | nil => exact List.suffix_refl _
  | cons b rest =>
    rw [skip]
    split
    · exact List.suffix_cons ..
    · exact List.suffix_refl _

theorem readField_suffix (part : FieldPart) (spec : FieldSpec) (bytes : Bytes) :
    (readField part spec bytes).2 <:+ bytes := by
  induction bytes generalizing part spec with
  | nil => exact List.suffix_refl _
  | cons b rest ih =>
    rw [readField]
    split
    · exact List.suffix_cons ..
    · split
      · exact (ih _ _).trans (List.suffix_cons ..)
      · exact List.suffix_cons ..

theorem readEscape_suffix (bytes : Bytes) : (readEscape bytes).2 <:+ bytes := by
  cases bytes with
  | nil => exact List.suffix_refl _
  | cons b rest =>
    have hskip (c : Char) (rest' : Bytes) (h : rest' <:+ rest) : skip c rest' <:+ b :: rest :=
      ((skip_suffix c rest').trans h).trans (List.suffix_cons ..)
    rw [readEscape]
    split
    · cases rest with
      | nil => simp [readParameter]
      | cons c rest =>
        rw [readParameter]
        split <;> exact ⟨[b, c], rfl⟩
    · cases rest with
      | nil => simp [readVariable]
      | cons c rest => exact ⟨[b, c], rfl⟩
    · cases rest with
      | nil => simp [readVariable]
      | cons c rest => exact ⟨[b, c], rfl⟩
    · cases rest with
      | nil => simp [readCharacter]
      | cons c rest => exact hskip _ _ (List.suffix_cons ..)
    · exact hskip _ _ (List.dropWhile_suffix _)
    · exact (readField_suffix ..).trans (List.suffix_cons ..)
    · exact readField_suffix ..
    · exact readField_suffix ..
    · exact readField_suffix ..
    · split
      · exact readField_suffix ..
      · exact List.suffix_cons ..

end TerminalCaps.Template

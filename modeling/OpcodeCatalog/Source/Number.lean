import OpcodeCatalog.Source.Lexeme
import OpcodeCatalog.Source.Span

/-!
# Integer literals

An integer literal is an optional sign, an optional radix mark `0x`, `0o` or
`0b`, and digits of the radix with underscores among them.  Its value has to fit
into 64 bits with a sign.  Literals with a fraction or an exponent are refused.
-/

namespace OpcodeCatalog.Source.Number

def isSign (byte : UInt8) : Bool :=
  byte == '-'.toUInt8 || byte == '+'.toUInt8

/-- Whether a number stands at the front: a digit, or a sign with a digit behind it. -/
def opens (text : Bytes) : Bool :=
  match text with
  | first :: rest => Ascii.isDigit first || isSign first && rest.head?.any Ascii.isDigit
  | [] => false

/-- Whether a minus sign stands in front. -/
def sign (text : Bytes) : Span Bool :=
  match text with
  | first :: _ => if isSign first then ⟨first == '-'.toUInt8, 1⟩ else ⟨false, 0⟩
  | [] => ⟨false, 0⟩

/-- The radix that the letter behind a leading zero tells. -/
def radixOfLetter? (letter : UInt8) : Option Radix :=
  if letter = 'x'.toUInt8 ∨ letter = 'X'.toUInt8 then some .hexadecimal
  else if letter = 'o'.toUInt8 ∨ letter = 'O'.toUInt8 then some .octal
  else if letter = 'b'.toUInt8 ∨ letter = 'B'.toUInt8 then some .binary
  else none

def radix (text : Bytes) : Span Radix :=
  match text with
  | first :: letter :: _ =>
    if first = '0'.toUInt8 then
      match radixOfLetter? letter with
      | some radix => ⟨radix, 2⟩
      | none => ⟨.decimal, 0⟩
    else ⟨.decimal, 0⟩
  | _ => ⟨.decimal, 0⟩

/-- The digits at the front, with underscores anywhere among them. -/
def digits (radix : Radix) : Bytes → Span (List Nat)
  | [] => ⟨[], 0⟩
  | byte :: rest =>
    if byte = Ascii.underscore then (digits radix rest).after 1
    else match radix.digitValue byte with
      | some digit => ((digits radix rest).map (digit :: ·)).after 1
      | none => ⟨[], 0⟩

/-- Whether the byte behind decimal digits would make them a literal with a
fraction or an exponent. -/
def continuesFraction (byte : UInt8) : Bool :=
  byte == '.'.toUInt8 || byte == 'e'.toUInt8 || byte == 'E'.toUInt8

def InRange (value : Int) : Prop :=
  -0x8000000000000000 ≤ value ∧ value < 0x8000000000000000

instance (value : Int) : Decidable (InRange value) :=
  inferInstanceAs (Decidable (_ ∧ _))

/-- A magnitude that is out of range with either sign. -/
def magnitudeLimit : Nat := 0x8000000000000001

/-- The value of a literal, seen from its parts and the byte behind them. -/
def judge (negative : Bool) (radix : Radix) (digits : List Nat) (next : Option UInt8) :
    Except LexicalFault Int :=
  let magnitude : Int := radix.valueUpTo magnitudeLimit digits
  let value := if negative then -magnitude else magnitude
  if digits = [] then .error .noDigits
  else if radix = .decimal ∧ next.any continuesFraction then .error .fraction
  else match next.filter Ascii.continuesWord with
    | some byte => .error (.invalidDigit byte)
    | none => if InRange value then .ok value else .error .integerOutOfRange

/-- The literal at the front of a text. -/
def scan (text : Bytes) : Span (Except LexicalFault Int) :=
  let sign := sign text
  let unsigned := text.drop sign.width
  let radix := radix unsigned
  let written := unsigned.drop radix.width
  let digits := digits radix.value written
  ⟨judge sign.value radix.value digits.value (written.drop digits.width).head?,
    sign.width + radix.width + digits.width⟩

theorem width_digits_pos {radix : Radix} {byte : UInt8} {digit : Nat}
    (value : radix.digitValue byte = some digit) (rest : Bytes) :
    0 < (digits radix (byte :: rest)).width := by
  rw [digits]
  split
  · exact Span.width_after_pos Nat.one_pos _
  · rw [value]
    exact Span.width_after_pos Nat.one_pos _

/-- Without a radix mark the literal is decimal. -/
theorem radix_eq_decimal {text : Bytes} (unmarked : (radix text).width = 0) :
    (radix text).value = .decimal := by
  revert unmarked
  unfold radix
  split
  · split
    · split
      · intro unmarked
        cases unmarked
      · intro _
        rfl
    · intro _
      rfl
  · intro _
    rfl

/-- Wherever a number stands at the front, reading it uses up a byte. -/
theorem width_scan_pos {text : Bytes} (opens : opens text = true) : 0 < (scan text).width := by
  match text with
  | [] => cases opens
  | first :: rest =>
    by_cases signed : isSign first = true
    · have width : (sign (first :: rest)).width = 1 := by
        rw [sign, if_pos signed]
      unfold scan
      dsimp only
      rw [width]
      omega
    · have width : (sign (first :: rest)).width = 0 := by
        rw [sign, if_neg signed]
      have digit : Ascii.isDigit first = true := by
        simpa only [Number.opens, signed, Bool.false_and, Bool.or_false] using opens
      unfold scan
      dsimp only
      rw [width, List.drop_zero]
      by_cases unmarked : (radix (first :: rest)).width = 0
      · rw [unmarked, List.drop_zero, radix_eq_decimal unmarked]
        have positive := width_digits_pos (Radix.digitValue_decimal_of_isDigit digit) rest
        omega
      · omega

end OpcodeCatalog.Source.Number

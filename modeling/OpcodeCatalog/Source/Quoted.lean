import OpcodeCatalog.Source.Lexeme
import OpcodeCatalog.Source.Span

/-!
# Quoted strings

A quoted string holds any bytes between two quotes.  A backslash opens an
escape: one of a few letters, a byte as `\x` with two hexadecimal digits, or a
Unicode scalar value as `\u` with up to six of them in braces, which stands for
its UTF-8 encoding.  Written strings escape what could break a line.
-/

namespace OpcodeCatalog.Source.Quoted

/-- The byte that a one-letter escape stands for. -/
def escapedByLetter? (letter : UInt8) : Option UInt8 :=
  if letter = Ascii.backslash then some Ascii.backslash
  else if letter = Ascii.quote then some Ascii.quote
  else if letter = '\''.toUInt8 then some '\''.toUInt8
  else if letter = 'n'.toUInt8 then some Ascii.newline
  else if letter = 'r'.toUInt8 then some '\r'.toUInt8
  else if letter = 't'.toUInt8 then some '\t'.toUInt8
  else if letter = '0'.toUInt8 then some 0
  else none

/-- The two digits of a byte escape. -/
def byteEscape (text : Bytes) : Span (Except LexicalFault Bytes) :=
  match text with
  | high :: low :: _ =>
    match hexDigitValue high, hexDigitValue low with
    | some high, some low => ⟨.ok [(16 * high + low).toUInt8], 2⟩
    | _, _ => ⟨.error .malformedByteEscape, 0⟩
  | _ => ⟨.error .malformedByteEscape, 0⟩

/-- The digits up to a closing brace, of which there may be no more than `room`. -/
def bracedDigits (room : Nat) : Bytes → Span (Option (List Nat))
  | [] => ⟨none, 0⟩
  | byte :: rest =>
    if byte = '}'.toUInt8 then ⟨some [], 1⟩
    else match room, hexDigitValue byte with
      | room + 1, some digit => ((bracedDigits room rest).map (·.map (digit :: ·))).after 1
      | _, _ => ⟨none, 1⟩

/-- The UTF-8 encoding of the scalar value that the digits denote. -/
def encodeScalar? (digits : List Nat) : Option Bytes :=
  let scalar := Radix.hexadecimal.value digits
  if digits ≠ [] ∧ scalar.isValidChar then some (String.utf8EncodeChar (Char.ofNat scalar))
  else none

/-- The braces of a code point escape and what they hold. -/
def codePointEscape (text : Bytes) : Span (Except LexicalFault Bytes) :=
  match text with
  | [] => ⟨.error .malformedCodePointEscape, 0⟩
  | opening :: rest =>
    if opening = '{'.toUInt8 then
      let digits := bracedDigits 6 rest
      match digits.value.bind encodeScalar? with
      | some encoded => ⟨.ok encoded, 1 + digits.width⟩
      | none => ⟨.error .malformedCodePointEscape, 1 + digits.width⟩
    else ⟨.error .malformedCodePointEscape, 1⟩

/-- The escape behind a backslash.  At the end of the text it counts as an
unknown one, of the byte zero. -/
def escape (text : Bytes) : Span (Except LexicalFault Bytes) :=
  match text with
  | [] => ⟨.error (.unknownEscape 0), 0⟩
  | letter :: rest =>
    if letter = 'x'.toUInt8 then (byteEscape rest).after 1
    else if letter = 'u'.toUInt8 then (codePointEscape rest).after 1
    else match escapedByLetter? letter with
      | some byte => ⟨.ok [byte], 1⟩
      | none => ⟨.error (.unknownEscape letter), 1⟩

/-- The string behind its opening quote, up to and with the closing one. -/
def scan (text : Bytes) : Span (Except LexicalFault Bytes) :=
  match text with
  | [] => ⟨.error .unterminatedString, 0⟩
  | byte :: rest =>
    if byte = Ascii.quote then ⟨.ok [], 1⟩
    else if byte = Ascii.backslash then
      let escape := escape rest
      match escape.value with
      | .error fault => ⟨.error fault, 1 + escape.width⟩
      | .ok escaped =>
        ((scan (rest.drop escape.width)).map (·.map (escaped ++ ·))).after (1 + escape.width)
    else ((scan rest).map (·.map (byte :: ·))).after 1
termination_by text.length

/-- How a byte is written between quotes. -/
def writeByte (byte : UInt8) : Bytes :=
  if byte = Ascii.backslash then ascii "\\\\"
  else if byte = Ascii.quote then ascii "\\\""
  else if byte = Ascii.newline then ascii "\\n"
  else if byte = '\r'.toUInt8 then ascii "\\r"
  else if byte = '\t'.toUInt8 then ascii "\\t"
  else if byte = 0 then ascii "\\0"
  else if byte < 0x20 ∨ byte = 0x7F then
    ascii "\\x" ++ [digitByte .lower (byte.toNat / 16), digitByte .lower (byte.toNat % 16)]
  else [byte]

/-- A text in quotes, on one line. -/
def write (text : Bytes) : Bytes :=
  Ascii.quote :: (text.flatMap writeByte ++ [Ascii.quote])

end OpcodeCatalog.Source.Quoted

import OpcodeCatalog.Numeral

/-!
# Lexemes

A catalog source consists of marks, identifiers, integers and strings.  What
cannot be read as one of them is a lexical fault.
-/

namespace OpcodeCatalog.Source

inductive Mark where
  | leftParen
  | rightParen
  | leftBracket
  | rightBracket
  | leftBrace
  | rightBrace
  | colon
  | comma
  deriving DecidableEq

namespace Mark

def all : List Mark :=
  [leftParen, rightParen, leftBracket, rightBracket, leftBrace, rightBrace, colon, comma]

def byte : Mark → UInt8
  | leftParen => '('.toUInt8
  | rightParen => ')'.toUInt8
  | leftBracket => '['.toUInt8
  | rightBracket => ']'.toUInt8
  | leftBrace => '{'.toUInt8
  | rightBrace => '}'.toUInt8
  | colon => ':'.toUInt8
  | comma => ','.toUInt8

def ofByte? (byte : UInt8) : Option Mark :=
  all.find? fun mark => mark.byte == byte

end Mark

inductive Lexeme where
  | mark (mark : Mark)
  | identifier (text : Bytes)
  | integer (value : Int)
  | string (text : Bytes)
  deriving DecidableEq

/-- What may stand at a place of a source: a lexeme of some sort, a fault, or
nothing more. -/
inductive TokenKind where
  | endOfInput
  | error
  | identifier
  | integer
  | string
  | mark (mark : Mark)
  deriving DecidableEq

namespace TokenKind

def all : List TokenKind :=
  [endOfInput, error, identifier, integer, string] ++ Mark.all.map mark

def description : TokenKind → Bytes
  | endOfInput => ascii "end of input"
  | error => ascii "error"
  | identifier => ascii "identifier"
  | integer => ascii "integer"
  | string => ascii "string"
  | mark symbol => ascii "'" ++ [symbol.byte] ++ ascii "'"

end TokenKind

def Lexeme.kind : Lexeme → TokenKind
  | mark symbol => .mark symbol
  | identifier _ => .identifier
  | integer _ => .integer
  | string _ => .string

inductive LexicalFault where
  | unterminatedComment
  | unexpectedByte (byte : UInt8)
  | noDigits
  | fraction
  | invalidDigit (byte : UInt8)
  | integerOutOfRange
  | malformedByteEscape
  | malformedCodePointEscape
  | unknownEscape (byte : UInt8)
  | unterminatedString
  | malformedRawString
  | unterminatedRawString
  deriving DecidableEq

def LexicalFault.message : LexicalFault → Bytes
  | unterminatedComment => ascii "unterminated block comment"
  | unexpectedByte byte => ascii "unexpected character '" ++ [byte] ++ ascii "'"
  | noDigits => ascii "integer literal has no digits"
  | fraction => ascii "floating-point literals are not supported"
  | invalidDigit byte => ascii "invalid digit '" ++ [byte] ++ ascii "' in integer literal"
  | integerOutOfRange => ascii "integer literal out of range"
  | malformedByteEscape => ascii "malformed \\x escape"
  | malformedCodePointEscape => ascii "malformed \\u escape"
  | unknownEscape byte => ascii "unknown escape sequence '\\" ++ [byte] ++ ascii "'"
  | unterminatedString => ascii "unterminated string literal"
  | malformedRawString => ascii "malformed raw string literal"
  | unterminatedRawString => ascii "unterminated raw string literal"

end OpcodeCatalog.Source

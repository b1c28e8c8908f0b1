/-!
# Byte text

All text of a catalog is a sequence of bytes.  Names and descriptors may hold
any byte at all, so nothing here assumes valid UTF-8, and the byte classes know
ASCII only: a byte of 128 or more is in none of them.
-/

namespace OpcodeCatalog

abbrev Bytes := List UInt8

/-- The bytes of a text whose characters are all ASCII. -/
def ascii (text : String) : Bytes :=
  text.toList.map Char.toUInt8

namespace Ascii

def newline : UInt8 := '\n'.toUInt8

def quote : UInt8 := '"'.toUInt8

def backslash : UInt8 := '\\'.toUInt8

def hash : UInt8 := '#'.toUInt8

def slash : UInt8 := '/'.toUInt8

def star : UInt8 := '*'.toUInt8

def underscore : UInt8 := '_'.toUInt8

def isDigit (byte : UInt8) : Bool :=
  '0'.toUInt8 ≤ byte && byte ≤ '9'.toUInt8

def isLower (byte : UInt8) : Bool :=
  'a'.toUInt8 ≤ byte && byte ≤ 'z'.toUInt8

def isUpper (byte : UInt8) : Bool :=
  'A'.toUInt8 ≤ byte && byte ≤ 'Z'.toUInt8

/-- Bytes that may open a word. -/
def opensWord (byte : UInt8) : Bool :=
  isLower byte || isUpper byte || byte == underscore

/-- Bytes that may continue a word. -/
def continuesWord (byte : UInt8) : Bool :=
  opensWord byte || isDigit byte

def isBlank (byte : UInt8) : Bool :=
  byte == ' '.toUInt8 || byte == '\t'.toUInt8 || byte == '\r'.toUInt8 || byte == newline

end Ascii

end OpcodeCatalog

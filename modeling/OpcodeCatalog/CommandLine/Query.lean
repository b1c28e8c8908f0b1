import OpcodeCatalog.Numeral

/-!
# Queries on the command line

A query names an operand slot and, behind the first colon, a text.  Integers are
given in decimal, or in hexadecimal behind `0x`; a minus sign is allowed where
the integer may be negative.
-/

namespace OpcodeCatalog.CommandLine

/-- A number that no operand may be as large as. -/
def numberLimit : Nat := 0x100000000

/-- The number that a text of at least one digit denotes, or the limit if it is larger. -/
def digitsNumber? (radix : Radix) (text : Bytes) : Option Nat :=
  if text = [] then none
  else (text.mapM radix.digitValue).map (radix.valueUpTo numberLimit)

/-- A decimal number, or a hexadecimal one if at least one byte follows its `0x`. -/
def number? (text : Bytes) : Option Nat :=
  match text with
  | zero :: letter :: first :: rest =>
    if zero = '0'.toUInt8 ∧ (letter = 'x'.toUInt8 ∨ letter = 'X'.toUInt8) then
      digitsNumber? .hexadecimal (first :: rest)
    else digitsNumber? .decimal text
  | _ => digitsNumber? .decimal text

def unsigned32? (text : Bytes) : Option UInt32 :=
  ((number? text).filter (· < numberLimit)).map UInt32.ofNat

def signed32? (text : Bytes) : Option Int32 :=
  match text with
  | first :: rest =>
    if first = '-'.toUInt8 then
      ((number? rest).filter (· ≤ 0x80000000)).map fun magnitude => Int32.ofInt (-magnitude)
    else ((number? text).filter (· < 0x80000000)).map fun magnitude => Int32.ofInt magnitude
  | [] => none

/-- What a text says of an operand slot. -/
structure SlotQuery where
  slot : UInt32
  text : Bytes
  deriving DecidableEq

def SlotQuery.ofOperand? (operand : Bytes) : Option SlotQuery :=
  let slot := operand.takeWhile (· ≠ ':'.toUInt8)
  match operand.drop slot.length with
  | [] => none
  | _ :: text => (unsigned32? slot).map (⟨·, text⟩)

/-- A query for the name of a raw value. -/
structure NameQuery extends SlotQuery where
  value : Int32
  deriving DecidableEq

end OpcodeCatalog.CommandLine

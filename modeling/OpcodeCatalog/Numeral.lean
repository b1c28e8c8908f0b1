import OpcodeCatalog.Bytes

/-!
# Numerals

A numeral is a list of digit values, most significant first, in one of four
radixes.  `Radix.value` reads such a list and `Radix.digits` writes one; texts
of digits are made from them at the edge, by `hexDigitValue` and `digitByte`.
-/

namespace OpcodeCatalog

inductive Radix where
  | binary
  | octal
  | decimal
  | hexadecimal
  deriving DecidableEq

namespace Radix

def base : Radix → Nat
  | binary => 2
  | octal => 8
  | decimal => 10
  | hexadecimal => 16

theorem two_le_base (radix : Radix) : 2 ≤ radix.base := by
  cases radix <;> decide

/-- The number that a list of digits denotes. -/
def value (radix : Radix) (digits : List Nat) : Nat :=
  digits.foldl (fun total digit => total * radix.base + digit) 0

/-- The number that a list of digits denotes, or the limit if it is larger, so that
numbers too large to be of use are never worked out. -/
def valueUpTo (radix : Radix) (limit : Nat) (digits : List Nat) : Nat :=
  digits.foldl (fun total digit => min limit (total * radix.base + digit)) 0

private theorem min_step (radix : Radix) (limit total digit : Nat) :
    min limit (min limit total * radix.base + digit) =
      min limit (total * radix.base + digit) := by
  by_cases below : total ≤ limit
  · rw [Nat.min_eq_right below]
  · have positive : 0 < radix.base := Nat.lt_of_lt_of_le (by decide) radix.two_le_base
    have grows : limit ≤ limit * radix.base := Nat.le_mul_of_pos_right limit positive
    have above : limit * radix.base ≤ total * radix.base :=
      Nat.mul_le_mul_right radix.base (Nat.le_of_not_le below)
    rw [Nat.min_eq_left (Nat.le_of_not_le below)]
    omega

private theorem foldl_min (radix : Radix) (limit : Nat) (digits : List Nat) (total : Nat) :
    digits.foldl (fun total digit => min limit (total * radix.base + digit)) (min limit total) =
      min limit (digits.foldl (fun total digit => total * radix.base + digit) total) := by
  induction digits generalizing total with
  | nil => rfl
  | cons digit digits induction =>
    rw [List.foldl_cons, List.foldl_cons, min_step, induction]

theorem valueUpTo_eq (radix : Radix) (limit : Nat) (digits : List Nat) :
    radix.valueUpTo limit digits = min limit (radix.value digits) := by
  have folded := foldl_min radix limit digits 0
  rw [Nat.min_zero] at folded
  exact folded

/-- The digits of a number, without leading zeros. -/
def digits (radix : Radix) (number : Nat) : List Nat :=
  if number < radix.base then [number]
  else digits radix (number / radix.base) ++ [number % radix.base]
termination_by number
decreasing_by
  have := radix.two_le_base
  exact Nat.div_lt_self (by omega) (by omega)

end Radix

/-- The value of a hexadecimal digit of either case. -/
def hexDigitValue (byte : UInt8) : Option Nat :=
  if Ascii.isDigit byte then some (byte.toNat - '0'.toNat)
  else if 'a'.toUInt8 ≤ byte && byte ≤ 'f'.toUInt8 then some (byte.toNat - 'a'.toNat + 10)
  else if 'A'.toUInt8 ≤ byte && byte ≤ 'F'.toUInt8 then some (byte.toNat - 'A'.toNat + 10)
  else none

/-- The value of a digit of the radix. -/
def Radix.digitValue (radix : Radix) (byte : UInt8) : Option Nat :=
  (hexDigitValue byte).filter (· < radix.base)

theorem Radix.digitValue_decimal_of_isDigit {byte : UInt8} (digit : Ascii.isDigit byte = true) :
    Radix.decimal.digitValue byte = some (byte.toNat - '0'.toNat) := by
  have small : byte.toNat - '0'.toNat < Radix.decimal.base := by
    simp only [Ascii.isDigit, Bool.and_eq_true, decide_eq_true_eq, UInt8.le_iff_toNat_le] at digit
    have upper : byte.toNat ≤ 57 := digit.2
    change byte.toNat - 48 < 10
    omega
  simp only [Radix.digitValue, hexDigitValue, digit, ↓reduceIte]
  exact Option.filter_eq_some_iff.mpr ⟨rfl, decide_eq_true small⟩

inductive LetterCase where
  | lower
  | upper

/-- The byte that shows a digit below sixteen. -/
def digitByte (letters : LetterCase) (digit : Nat) : UInt8 :=
  if digit < 10 then '0'.toUInt8 + digit.toUInt8
  else match letters with
    | .lower => 'a'.toUInt8 + (digit - 10).toUInt8
    | .upper => 'A'.toUInt8 + (digit - 10).toUInt8

def decimal (number : Nat) : Bytes :=
  (Radix.decimal.digits number).map (digitByte .lower)

/-- A minus sign in front of the magnitude of a negative number. -/
def decimalInt (number : Int) : Bytes :=
  if number < 0 then '-'.toUInt8 :: decimal number.natAbs else decimal number.natAbs

/-- Uppercase hexadecimal behind `0x`. -/
def hexadecimal (number : Nat) : Bytes :=
  ascii "0x" ++ (Radix.hexadecimal.digits number).map (digitByte .upper)

end OpcodeCatalog

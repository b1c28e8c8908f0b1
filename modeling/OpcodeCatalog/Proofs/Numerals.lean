import OpcodeCatalog.Proofs.LexemeTexts

/-!
# Written numerals

The digits of a number denote it, and each is read back from the byte that shows
it.  So a number in decimal or hexadecimal is the text of a literal of that
number, and it is read as such before everything that delimits it.
-/

namespace OpcodeCatalog

namespace Radix

variable (radix : Radix)

theorem value_concat (digits : List Nat) (digit : Nat) :
    radix.value (digits ++ [digit]) = radix.value digits * radix.base + digit := by
  simp [value, List.foldl_append]

theorem value_digits (number : Nat) : radix.value (radix.digits number) = number := by
  induction number using digits.induct radix with
  | case1 number small =>
      rw [digits, if_pos small]
      simp [value]
  | case2 number large induction =>
      rw [digits, if_neg large, value_concat, induction, Nat.mul_comm]
      exact Nat.div_add_mod number radix.base

theorem digits_lt_base (number : Nat) : ∀ digit ∈ radix.digits number, digit < radix.base := by
  induction number using digits.induct radix with
  | case1 number small =>
      rw [digits, if_pos small]
      intro digit member
      rw [List.mem_singleton.mp member]
      exact small
  | case2 number large induction =>
      rw [digits, if_neg large]
      intro digit member
      rcases List.mem_append.mp member with earlier | last
      · exact induction digit earlier
      · rw [List.mem_singleton.mp last]
        apply Nat.mod_lt
        exact Nat.lt_of_lt_of_le Nat.two_pos radix.two_le_base

theorem digits_ne_nil (number : Nat) : radix.digits number ≠ [] := by
  rw [digits]
  split
  · exact List.cons_ne_nil _ _
  · exact List.append_ne_nil_of_right_ne_nil _ (List.cons_ne_nil _ _)

theorem base_le_sixteen : radix.base ≤ 16 := by
  cases radix <;> decide

end Radix

theorem hexDigitValue_digitByte {letters : LetterCase} {digit : Nat} (small : digit < 16) :
    hexDigitValue (digitByte letters digit) = some digit := by
  revert digit
  cases letters <;> decide

theorem Radix.digitValue_digitByte {radix : Radix} {letters : LetterCase} {digit : Nat}
    (small : digit < radix.base) : radix.digitValue (digitByte letters digit) = some digit := by
  have hexadecimal : digit < 16 := Nat.lt_of_lt_of_le small radix.base_le_sixteen
  unfold digitValue
  rw [hexDigitValue_digitByte hexadecimal]
  simp [small]

theorem add_toUInt8_sub {first byte : UInt8} (least : first ≤ byte) :
    first + (byte.toNat - first.toNat).toUInt8 = byte := by
  apply UInt8.toNat_inj.mp
  have least := UInt8.le_iff_toNat_le.mp least
  have bound := byte.toNat_lt
  simp only [UInt8.toNat_add, Nat.toUInt8_eq, UInt8.toNat_ofNat']
  omega

theorem exists_digitByte_of_hexDigitValue {byte : UInt8} {digit : Nat}
    (valued : hexDigitValue byte = some digit) :
    digit < 16 ∧ ∃ letters, digitByte letters digit = byte := by
  unfold hexDigitValue at valued
  split at valued
  · next decimal =>
      cases valued
      simp only [Ascii.isDigit, Bool.and_eq_true, decide_eq_true_eq] at decimal
      have most : byte.toNat ≤ 57 := UInt8.le_iff_toNat_le.mp decimal.2
      have small : byte.toNat - '0'.toNat < 10 := by
        change byte.toNat - 48 < 10
        omega
      refine ⟨Nat.lt_trans small (by decide), .lower, ?_⟩
      rw [digitByte, if_pos small]
      exact add_toUInt8_sub decimal.1
  split at valued
  · next lower =>
      cases valued
      simp only [Bool.and_eq_true, decide_eq_true_eq] at lower
      have most : byte.toNat ≤ 102 := UInt8.le_iff_toNat_le.mp lower.2
      refine ⟨?_, .lower, ?_⟩
      · change byte.toNat - 97 + 10 < 16
        omega
      · rw [digitByte, if_neg (Nat.not_lt.mpr (Nat.le_add_left 10 _)), Nat.add_sub_cancel]
        exact add_toUInt8_sub lower.1
  split at valued
  · next upper =>
      cases valued
      simp only [Bool.and_eq_true, decide_eq_true_eq] at upper
      have most : byte.toNat ≤ 70 := UInt8.le_iff_toNat_le.mp upper.2
      refine ⟨?_, .upper, ?_⟩
      · change byte.toNat - 65 + 10 < 16
        omega
      · rw [digitByte, if_neg (Nat.not_lt.mpr (Nat.le_add_left 10 _)), Nat.add_sub_cancel]
        exact add_toUInt8_sub upper.1
  · cases valued

/-- Hexadecimal digits are the bytes that show them, in either case. -/
theorem hexDigitValue_eq_some_iff {byte : UInt8} {digit : Nat} :
    hexDigitValue byte = some digit ↔ digit < 16 ∧ ∃ letters, digitByte letters digit = byte := by
  constructor
  · exact exists_digitByte_of_hexDigitValue
  · rintro ⟨small, letters, rfl⟩
    exact hexDigitValue_digitByte small

theorem isDigit_digitByte {letters : LetterCase} {digit : Nat} (small : digit < 10) :
    Ascii.isDigit (digitByte letters digit) = true := by
  revert digit
  cases letters <;> decide

theorem isDigit_of_mem_decimal {number : Nat} {byte : UInt8} (member : byte ∈ decimal number) :
    Ascii.isDigit byte = true := by
  obtain ⟨digit, digitMember, rfl⟩ := List.mem_map.mp member
  exact isDigit_digitByte (Radix.digits_lt_base .decimal number digit digitMember)

namespace Source.Number

theorem digitsText_map {radix : Radix} {letters : LetterCase} {digits : List Nat}
    (small : ∀ digit ∈ digits, digit < radix.base) :
    DigitsText radix (digits.map (digitByte letters)) digits := by
  induction digits with
  | nil => exact .nil
  | cons digit digits induction =>
      apply DigitsText.digit
      · exact Radix.digitValue_digitByte (small digit List.mem_cons_self)
      · apply induction
        intro later member
        exact small later (List.mem_cons_of_mem digit member)

theorem literalText_decimalInt (number : Int) :
    LiteralText (decide (number < 0)) .decimal (Radix.decimal.digits number.natAbs)
      (decimalInt number) := by
  unfold decimalInt
  have digits : DigitsText .decimal (decimal number.natAbs)
      (Radix.decimal.digits number.natAbs) := digitsText_map (Radix.digits_lt_base _ _)
  by_cases negative : number < 0
  · rw [if_pos negative, decide_eq_true negative]
    exact .parts .minus .unmarked digits
  · rw [if_neg negative, decide_eq_false negative]
    exact .parts .unsigned .unmarked digits

theorem literalText_hexadecimal (number : Nat) :
    LiteralText false .hexadecimal (Radix.hexadecimal.digits number) (hexadecimal number) :=
  .parts .unsigned (.marked rfl) (digitsText_map (Radix.digits_lt_base _ number))

/-- A literal of a number that is in range is read before whatever delimits it. -/
theorem scanned_of_literal {negative : Bool} {radix : Radix} {digits : List Nat} {first : UInt8}
    {text tail : Bytes} (shown : LiteralText negative radix digits (first :: text))
    (opens : Number.opens (first :: text) = true) (nonempty : digits ≠ [])
    (inRange : InRange (literalValue negative radix digits)) (delimited : Delimited tail) :
    Scanned first (text ++ tail) (.integer (literalValue negative radix digits))
      (1 + text.length) := by
  have judgedAlone : judge negative radix digits ([] : Bytes).head? =
      .ok (literalValue negative radix digits) :=
    judge_eq_ok_iff.mpr ⟨nonempty, by simp, rfl, inRange, rfl⟩
  have read := scan_of_text shown (List.cons_ne_nil first text) delimited.apart
  rw [judge_of_delimited judgedAlone delimited, List.length_cons, Nat.add_comm] at read
  have opensAll : Number.opens (first :: (text ++ tail)) = true := by
    rcases opens_iff.mp opens with digit | ⟨signed, next, front, digit⟩
    · exact opens_iff.mpr (.inl digit)
    · apply opens_iff.mpr
      refine .inr ⟨signed, next, ?_, digit⟩
      rw [List.head?_append, front, Option.some_or]
  exact .number opensAll read

theorem exists_decimal_eq_cons (number : Nat) :
    ∃ first rest, decimal number = first :: rest ∧ Ascii.isDigit first = true := by
  have small := Radix.digits_lt_base .decimal number
  unfold decimal
  cases digits : Radix.decimal.digits number with
  | nil => exact (Radix.digits_ne_nil _ number digits).elim
  | cons digit later =>
      refine ⟨_, _, List.map_cons, ?_⟩
      apply isDigit_digitByte
      apply small
      rw [digits]
      exact List.mem_cons_self

theorem exists_decimalInt_eq_cons (number : Int) :
    ∃ first rest, decimalInt number = first :: rest ∧ Number.opens (first :: rest) = true := by
  obtain ⟨first, rest, written, digit⟩ := exists_decimal_eq_cons number.natAbs
  unfold decimalInt
  rw [written]
  split
  · exact ⟨_, _, rfl, opens_iff.mpr (.inr ⟨rfl, first, rfl, digit⟩)⟩
  · exact ⟨_, _, rfl, opens_iff.mpr (.inl digit)⟩

end Source.Number

end OpcodeCatalog

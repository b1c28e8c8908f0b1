import OpcodeCatalog.Instruction
import OpcodeCatalog.CommandLine.Query
import OpcodeCatalog.Proofs.ScannedLiterals
import Mathlib.Data.List.Forall2

/-!
# Numbers on the command line

Which texts the command line takes for numbers, told without a reader: digits that
show a number in range, in decimal or behind a hexadecimal mark, with a minus sign
where the number may be negative.  A source that consists of such a text is one
integer literal of the same number, so that an opcode is spelled alike in both places.
-/

namespace OpcodeCatalog

namespace Radix

/-- The byte is a digit of the radix, a letter in either case. -/
def ShowsDigit (radix : Radix) (byte : UInt8) (digit : Nat) : Prop :=
  digit < radix.base ∧ ∃ letters, digitByte letters digit = byte

/-- One digit or more show the number, leading zeros among them. -/
def Shows (radix : Radix) (text : Bytes) (number : Nat) : Prop :=
  ∃ digits, digits ≠ [] ∧ List.Forall₂ radix.ShowsDigit text digits ∧ radix.value digits = number

variable {radix : Radix} {byte : UInt8} {digit : Nat} {text : Bytes} {digits : List Nat}

theorem showsDigit_iff : radix.ShowsDigit byte digit ↔ radix.digitValue byte = some digit := by
  unfold ShowsDigit digitValue
  rw [Option.filter_eq_some_iff, hexDigitValue_eq_some_iff, decide_eq_true_iff]
  constructor
  · intro shown
    exact ⟨⟨Nat.lt_of_lt_of_le shown.1 radix.base_le_sixteen, shown.2⟩, shown.1⟩
  · intro valued
    exact ⟨valued.2, valued.1.2⟩

/-- A text is taken for digits byte by byte. -/
theorem mapM_digitValue_eq_some_iff :
    text.mapM radix.digitValue = some digits ↔ List.Forall₂ radix.ShowsDigit text digits := by
  induction text generalizing digits with
  | nil => simp [eq_comm]
  | cons byte text induction =>
      rw [List.forall₂_cons_left_iff, List.mapM_cons]
      simp only [Option.bind_eq_bind, Option.bind_eq_some_iff, induction, showsDigit_iff]
      constructor
      · rintro ⟨digit, valued, later, shown, same⟩
        exact ⟨digit, later, valued, shown, (Option.some.inj same).symm⟩
      · rintro ⟨digit, later, valued, shown, rfl⟩
        exact ⟨digit, valued, later, shown, rfl⟩

theorem digitsText_of_forall₂ (shown : List.Forall₂ radix.ShowsDigit text digits) :
    Source.Number.DigitsText radix text digits := by
  induction shown with
  | nil => exact .nil
  | cons shownDigit _ induction => exact .digit (showsDigit_iff.mp shownDigit) induction

/-- The digits of a number show it. -/
theorem shows_digits (letters : LetterCase) (number : Nat) :
    radix.Shows ((radix.digits number).map (digitByte letters)) number := by
  refine ⟨radix.digits number, radix.digits_ne_nil number, ?_, radix.value_digits number⟩
  rw [List.forall₂_map_left_iff, List.forall₂_same]
  intro digit member
  exact ⟨radix.digits_lt_base number digit member, letters, rfl⟩

theorem Shows.ne_nil {number : Nat} (shown : radix.Shows text number) : text ≠ [] := by
  obtain ⟨digits, nonempty, shown, -⟩ := shown
  rintro rfl
  cases shown
  exact nonempty rfl

theorem head_digits_ne_zero {number : Nat} (positive : 0 < number) :
    (radix.digits number).head? ≠ some 0 := by
  have base := radix.two_le_base
  induction number using digits.induct radix with
  | case1 number small =>
      rw [Radix.digits, if_pos small, List.head?_cons, Ne, Option.some.injEq]
      exact Nat.ne_of_gt positive
  | case2 number large induction =>
      rw [Radix.digits, if_neg large, List.head?_append_of_ne_nil _ (radix.digits_ne_nil _)]
      exact induction (Nat.div_pos (Nat.le_of_not_lt large) (by omega))

end Radix

namespace CommandLine

variable {radix : Radix} {text : Bytes} {number : Nat}

/-- A number without a sign, in decimal or behind a hexadecimal mark. -/
inductive NumberText : Bytes → Nat → Prop where
  | decimal {text : Bytes} {number : Nat} :
      Radix.decimal.Shows text number →
      NumberText text number
  | hexadecimal {letter : UInt8} {text : Bytes} {number : Nat} :
      letter = 'x'.toUInt8 ∨ letter = 'X'.toUInt8 →
      Radix.hexadecimal.Shows text number →
      NumberText ('0'.toUInt8 :: letter :: text) number

inductive SignedText : Bytes → Int → Prop where
  | plain {text : Bytes} {number : Nat} :
      NumberText text number →
      SignedText text number
  | minus {text : Bytes} {number : Nat} :
      NumberText text number →
      SignedText ('-'.toUInt8 :: text) (-number)

theorem digitsNumber?_eq_some_iff {limited : Nat} :
    digitsNumber? radix text = some limited ↔
      ∃ number, radix.Shows text number ∧ min numberLimit number = limited := by
  unfold digitsNumber? Radix.Shows
  split
  · next empty =>
      subst empty
      simp
  · next written =>
      simp only [Option.map_eq_some_iff, Radix.mapM_digitValue_eq_some_iff, Radix.valueUpTo_eq]
      constructor
      · rintro ⟨digits, shown, rfl⟩
        refine ⟨_, ⟨digits, ?_, shown, rfl⟩, rfl⟩
        rintro rfl
        cases shown
        exact written rfl
      · rintro ⟨number, ⟨digits, -, shown, rfl⟩, rfl⟩
        exact ⟨digits, shown, rfl⟩

/-- No radix mark stands among decimal digits. -/
theorem number?_of_decimal (shown : Radix.decimal.Shows text number) :
    number? text = digitsNumber? .decimal text := by
  unfold number?
  split
  · next zero letter first rest =>
      rw [if_neg]
      intro marked
      obtain ⟨digits, -, shown, -⟩ := shown
      cases shown with
      | cons _ later =>
          cases later with
          | cons second _ =>
              have valued := Radix.showsDigit_iff.mp second
              rcases marked.2 with rfl | rfl <;> cases valued
  · rfl

theorem number?_marked {letter : UInt8} (marked : letter = 'x'.toUInt8 ∨ letter = 'X'.toUInt8)
    (written : text ≠ []) :
    number? ('0'.toUInt8 :: letter :: text) = digitsNumber? .hexadecimal text := by
  cases text with
  | nil => exact (written rfl).elim
  | cons first rest =>
      unfold number?
      exact if_pos ⟨rfl, marked⟩

/-- The numbers that are read are those that the text shows, cut down to the limit. -/
theorem number?_eq_some_iff {limited : Nat} :
    number? text = some limited ↔
      ∃ number, NumberText text number ∧ min numberLimit number = limited := by
  constructor
  · intro read
    unfold number? at read
    split at read
    · next zero letter first rest =>
        split at read
        · next marked =>
            obtain ⟨number, shown, cut⟩ := digitsNumber?_eq_some_iff.mp read
            rw [marked.1]
            exact ⟨number, .hexadecimal marked.2 shown, cut⟩
        · obtain ⟨number, shown, cut⟩ := digitsNumber?_eq_some_iff.mp read
          exact ⟨number, .decimal shown, cut⟩
    · obtain ⟨number, shown, cut⟩ := digitsNumber?_eq_some_iff.mp read
      exact ⟨number, .decimal shown, cut⟩
  · rintro ⟨number, shown, cut⟩
    cases shown with
    | decimal shown =>
        rw [number?_of_decimal shown]
        exact digitsNumber?_eq_some_iff.mpr ⟨number, shown, cut⟩
    | hexadecimal marked shown =>
        rw [number?_marked marked shown.ne_nil]
        exact digitsNumber?_eq_some_iff.mpr ⟨number, shown, cut⟩

/-- Under a bound that no number at the limit keeps, only numbers that the text shows are left. -/
theorem number?_filter_eq_some_iff {bounded : Nat → Prop} [DecidablePred bounded]
    (small : ∀ number, bounded number → number < numberLimit) :
    (number? text).filter (fun number => decide (bounded number)) = some number ↔
      NumberText text number ∧ bounded number := by
  rw [Option.filter_eq_some_iff, number?_eq_some_iff, decide_eq_true_iff]
  constructor
  · rintro ⟨⟨other, shown, cut⟩, within⟩
    have same : other = number := by
      have := small number within
      omega
    exact ⟨same ▸ shown, within⟩
  · rintro ⟨shown, within⟩
    exact ⟨⟨number, shown, Nat.min_eq_right (Nat.le_of_lt (small number within))⟩, within⟩

theorem unsigned32?_eq_some_iff {value : UInt32} :
    unsigned32? text = some value ↔ NumberText text value.toNat := by
  simp only [unsigned32?, Option.map_eq_some_iff,
    number?_filter_eq_some_iff fun number (within : number < numberLimit) => within]
  constructor
  · rintro ⟨number, ⟨shown, within⟩, rfl⟩
    rwa [UInt32.toNat_ofNat_of_lt' within]
  · intro shown
    exact ⟨value.toNat, ⟨shown, value.toNat_lt⟩, UInt32.ofNat_toNat⟩

theorem NumberText.head?_ne_minus (shown : NumberText text number) :
    text.head? ≠ some '-'.toUInt8 := by
  intro minus
  obtain ⟨rest, rfl⟩ := List.head?_eq_some_iff.mp minus
  cases shown with
  | decimal shown =>
      obtain ⟨digits, -, shown, -⟩ := shown
      cases shown with
      | cons first _ => cases Radix.showsDigit_iff.mp first

theorem signed32?_minus {rest : Bytes} {value : Int32} :
    signed32? ('-'.toUInt8 :: rest) = some value ↔
      ∃ number : Nat, (NumberText rest number ∧ number ≤ 0x80000000) ∧
        Int32.ofInt (-number) = value := by
  have read : signed32? ('-'.toUInt8 :: rest) = ((number? rest).filter (· ≤ 0x80000000)).map
      fun (number : Nat) => Int32.ofInt (-number) := by
    simp only [signed32?, if_true]
    cases (number? rest).filter (· ≤ 0x80000000) <;> rfl
  rw [read, Option.map_eq_some_iff]
  simp only [number?_filter_eq_some_iff fun number (within : number ≤ 0x80000000) =>
    Nat.lt_of_le_of_lt within (by decide)]

theorem signed32?_plain {value : Int32} (plain : text.head? ≠ some '-'.toUInt8) :
    signed32? text = some value ↔
      ∃ number : Nat, (NumberText text number ∧ number < 0x80000000) ∧
        Int32.ofInt number = value := by
  have read : signed32? text = ((number? text).filter (· < 0x80000000)).map
      fun (number : Nat) => Int32.ofInt number := by
    cases text with
    | nil => rfl
    | cons first rest =>
        have noMinus : first ≠ '-'.toUInt8 := fun same => plain (congrArg some same)
        simp only [signed32?, if_neg noMinus]
        cases (number? (first :: rest)).filter (· < 0x80000000) <;> rfl
  rw [read, Option.map_eq_some_iff]
  simp only [number?_filter_eq_some_iff fun number (within : number < 0x80000000) =>
    Nat.lt_trans within (by decide)]

theorem signed32?_eq_some_iff {value : Int32} :
    signed32? text = some value ↔ SignedText text value.toInt := by
  constructor
  · intro read
    by_cases minus : text.head? = some '-'.toUInt8
    · obtain ⟨rest, rfl⟩ := List.head?_eq_some_iff.mp minus
      obtain ⟨number, ⟨shown, within⟩, rfl⟩ := signed32?_minus.mp read
      rw [Int32.toInt_ofInt_of_le (by omega) (by omega)]
      exact .minus shown
    · obtain ⟨number, ⟨shown, within⟩, rfl⟩ := (signed32?_plain minus).mp read
      rw [Int32.toInt_ofInt_of_le (by omega) (by omega)]
      exact .plain shown
  · have least := value.le_toInt
    have most := value.toInt_lt
    generalize shows : value.toInt = shown at least most
    intro signed
    cases signed with
    | @plain text number shown =>
        refine (signed32?_plain shown.head?_ne_minus).mpr ⟨number, ⟨shown, by omega⟩, ?_⟩
        rw [← shows, Int32.ofInt_toInt]
    | @minus text number shown =>
        refine signed32?_minus.mpr ⟨number, ⟨shown, by omega⟩, ?_⟩
        rw [← shows, Int32.ofInt_toInt]

/-! ## Numbers in a source -/

/-- A source of this text is one integer literal, and nothing else. -/
def IsLiteral (text : Bytes) (value : Int) : Prop :=
  ∀ file : UInt32, (Source.TokenStream.ofSource file text).lexemes = [.integer value] ∧
    (Source.TokenStream.ofSource file text).ending.fault = none

theorem isLiteral_text {negative : Bool} {radix : Radix} {digits : List Nat}
    (literal : Source.Number.Literal negative radix digits)
    (inRange : Source.Number.InRange (Source.Number.literalValue negative radix digits)) :
    IsLiteral literal.text (Source.Number.literalValue negative radix digits) := by
  intro file
  obtain ⟨first, later, split, opens⟩ := literal.exists_opening []
  have shown : Source.Number.LiteralText negative radix digits literal.text :=
    .parts literal.signed literal.marked literal.shown
  rw [List.append_nil] at split
  rw [split] at shown ⊢
  have shows := Source.shows_literal shown opens literal.nonempty inRange
  rw [Source.TokenStream.lexemes_ofSource, Source.TokenStream.fault_ofSource]
  exact shows.lexed_eq Source.delimited_nil

/-- Behind a sign, what shows a number is a literal. -/
theorem NumberText.exists_literal (shown : NumberText text number) {sign : Bytes}
    {negative : Bool} (signed : Source.Number.SignText sign negative) :
    ∃ radix digits, ∃ literal : Source.Number.Literal negative radix digits,
      literal.text = sign ++ text ∧ radix.value digits = number := by
  cases shown with
  | decimal shown =>
      obtain ⟨digits, nonempty, shown, value⟩ := shown
      have opens : ∃ byte, text.head? = some byte ∧ Ascii.isDigit byte = true := by
        cases shown with
        | nil => exact (nonempty rfl).elim
        | cons first _ =>
            obtain ⟨small, letters, rfl⟩ := first
            exact ⟨_, rfl, isDigit_digitByte small⟩
      exact ⟨_, digits, ⟨sign, [], text, signed, .unmarked, Radix.digitsText_of_forall₂ shown,
        nonempty, fun _ => opens⟩, rfl, value⟩
  | @hexadecimal letter body _ marked shown =>
      obtain ⟨digits, nonempty, shown, value⟩ := shown
      have told : Source.Number.radixOfLetter? letter = some .hexadecimal := if_pos marked
      exact ⟨_, digits, ⟨sign, ['0'.toUInt8, letter], body, signed, .marked told,
        Radix.digitsText_of_forall₂ shown, nonempty, nofun⟩, rfl, value⟩

theorem SignedText.isLiteral {value : Int} (shown : SignedText text value)
    (inRange : Source.Number.InRange value) : IsLiteral text value := by
  cases shown with
  | plain shown =>
      obtain ⟨radix, digits, literal, rfl, rfl⟩ := shown.exists_literal .unsigned
      exact isLiteral_text literal inRange
  | minus shown =>
      obtain ⟨radix, digits, literal, written, rfl⟩ := shown.exists_literal .minus
      rw [← List.singleton_append, ← written]
      exact isLiteral_text literal inRange

/-- Digits with uppercase letters, of which none is a leading zero. -/
structure PlainHexadecimal (digits : Bytes) : Prop where
  nonempty : digits ≠ []
  uppercase : ∀ byte ∈ digits, Ascii.isDigit byte = true ∨ 'A'.toUInt8 ≤ byte ∧ byte ≤ 'F'.toUInt8
  noLeadingZero : digits.head? = some '0'.toUInt8 → digits = ['0'.toUInt8]

theorem uppercase_digitByte {digit : Nat} (small : digit < 16) :
    Ascii.isDigit (digitByte .upper digit) = true ∨
      'A'.toUInt8 ≤ digitByte .upper digit ∧ digitByte .upper digit ≤ 'F'.toUInt8 := by
  revert digit
  decide

theorem digitByte_eq_zero {digit : Nat} (small : digit < 16)
    (zero : digitByte .upper digit = '0'.toUInt8) : digit = 0 := by
  revert digit
  decide

theorem plainHexadecimal_digits (number : Nat) :
    PlainHexadecimal ((Radix.hexadecimal.digits number).map (digitByte .upper)) := by
  have small := Radix.hexadecimal.digits_lt_base number
  constructor
  · rw [Ne, List.map_eq_nil_iff]
    exact Radix.hexadecimal.digits_ne_nil number
  · intro byte member
    obtain ⟨digit, digitMember, rfl⟩ := List.mem_map.mp member
    exact uppercase_digitByte (small digit digitMember)
  · intro zero
    rw [List.head?_map, Option.map_eq_some_iff] at zero
    obtain ⟨digit, front, shown⟩ := zero
    have none := digitByte_eq_zero (small digit (List.mem_of_head? front)) shown
    cases number with
    | zero =>
        rw [Radix.digits]
        rfl
    | succ number =>
        rw [none] at front
        exact (Radix.head_digits_ne_zero number.succ_pos front).elim

theorem numberText_hexadecimal (number : Nat) : NumberText (hexadecimal number) number :=
  .hexadecimal (.inl rfl) (Radix.shows_digits .upper number)

theorem numberText_decimal (number : Nat) : NumberText (decimal number) number :=
  .decimal (Radix.shows_digits .lower number)

theorem NumberText.read_back {id : UInt32} (shown : NumberText text id.toNat) :
    unsigned32? text = some id ∧ IsLiteral text id.toNat := by
  have most := id.toNat_lt
  refine ⟨unsigned32?_eq_some_iff.mpr shown, (SignedText.plain shown).isLiteral ?_⟩
  unfold Source.Number.InRange
  omega

/-- The command line takes for a number exactly a text that shows one in range, and that text is
the same number in a source.  An opcode as it is listed, and in decimal, is read back by both. -/
theorem numbers_read_alike :
    (∀ (text : Bytes) (value : UInt32),
      unsigned32? text = some value ↔ NumberText text value.toNat) ∧
      (∀ (text : Bytes) (value : Int32),
        signed32? text = some value ↔ SignedText text value.toInt) ∧
      (∀ (text : Bytes) (value : UInt32),
        unsigned32? text = some value → IsLiteral text value.toNat) ∧
      (∀ (text : Bytes) (value : Int32),
        signed32? text = some value → IsLiteral text value.toInt) ∧
      ∀ id : UInt32,
        (∃ digits, Instruction.opcodeText id = ascii "0x" ++ digits ∧ PlainHexadecimal digits) ∧
          (unsigned32? (Instruction.opcodeText id) = some id ∧
            IsLiteral (Instruction.opcodeText id) id.toNat) ∧
          (unsigned32? (decimal id.toNat) = some id ∧ IsLiteral (decimal id.toNat) id.toNat) := by
  refine ⟨fun _ _ => unsigned32?_eq_some_iff, fun _ _ => signed32?_eq_some_iff, ?_, ?_, ?_⟩
  · intro text value read
    exact (unsigned32?_eq_some_iff.mp read).read_back.2
  · intro text value read
    have least := value.le_toInt
    have most := value.toInt_lt
    apply (signed32?_eq_some_iff.mp read).isLiteral
    unfold Source.Number.InRange
    omega
  · intro id
    exact ⟨⟨_, rfl, plainHexadecimal_digits id.toNat⟩, (numberText_hexadecimal _).read_back,
      (numberText_decimal _).read_back⟩

/-- The least number with a sign and the greatest one without, one of them with leading zeros. -/
theorem numbers_read_alike_of_limits :
    signed32? (ascii "-0X80000000") = some Int32.minValue ∧
      IsLiteral (ascii "-0X80000000") (-2 ^ 31) ∧
      unsigned32? (ascii "0004294967295") = some 4294967295 ∧
      IsLiteral (ascii "0004294967295") (2 ^ 32 - 1) := by
  obtain ⟨-, -, unsigned, signed, -⟩ := numbers_read_alike
  have least : signed32? (ascii "-0X80000000") = some Int32.minValue := by decide
  have greatest : unsigned32? (ascii "0004294967295") = some 4294967295 := by decide
  exact ⟨least, signed _ _ least, greatest, unsigned _ _ greatest⟩

end CommandLine

end OpcodeCatalog

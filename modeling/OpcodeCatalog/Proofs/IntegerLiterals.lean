import OpcodeCatalog.Source.Number

/-!
# The text of integer literals

Which texts are integer literals, told without a scanner: a sign, a radix mark
and digits.  A scanner finds such a text at the front wherever no byte follows
that could continue it, and it accepts no other text.
-/

namespace OpcodeCatalog

theorem Ascii.continuesWord_of_hexDigitValue {byte : UInt8} {digit : Nat}
    (valued : hexDigitValue byte = some digit) : Ascii.continuesWord byte = true := by
  unfold hexDigitValue at valued
  split at valued
  · next isDigit => simp [Ascii.continuesWord, isDigit]
  · split at valued
    · next lower =>
        obtain ⟨least, most⟩ := Bool.and_eq_true_iff.mp lower
        have isLower : Ascii.isLower byte = true := by
          have bound : byte ≤ 'z'.toUInt8 := UInt8.le_trans (of_decide_eq_true most) (by decide)
          simp [Ascii.isLower, of_decide_eq_true least, bound]
        simp [Ascii.continuesWord, Ascii.opensWord, isLower]
    · split at valued
      · next upper =>
          obtain ⟨least, most⟩ := Bool.and_eq_true_iff.mp upper
          have isUpper : Ascii.isUpper byte = true := by
            have bound : byte ≤ 'Z'.toUInt8 := UInt8.le_trans (of_decide_eq_true most) (by decide)
            simp [Ascii.isUpper, of_decide_eq_true least, bound]
          simp [Ascii.continuesWord, Ascii.opensWord, isUpper]
      · cases valued

theorem Radix.digitValue_eq_some {radix : Radix} {byte : UInt8} {digit : Nat}
    (valued : radix.digitValue byte = some digit) :
    hexDigitValue byte = some digit ∧ digit < radix.base := by
  obtain ⟨value, small⟩ := Option.filter_eq_some_iff.mp valued
  exact ⟨value, of_decide_eq_true small⟩

theorem Radix.digitValue_underscore (radix : Radix) :
    radix.digitValue Ascii.underscore = none := rfl

theorem Radix.isSign_of_digitValue {radix : Radix} {byte : UInt8} {digit : Nat}
    (valued : radix.digitValue byte = some digit) : Source.Number.isSign byte = false := by
  cases signed : Source.Number.isSign byte with
  | false => rfl
  | true =>
      rcases Bool.or_eq_true_iff.mp signed with minus | plus
      · rw [beq_iff_eq.mp minus] at valued
        cases valued
      · rw [beq_iff_eq.mp plus] at valued
        cases valued

namespace Source

/-- No byte stands at the front that could continue a word or a number. -/
def Apart (text : Bytes) : Prop :=
  ∀ byte, text.head? = some byte → Ascii.continuesWord byte = false

theorem apart_nil : Apart [] := by
  intro byte front
  cases front

namespace Number

inductive SignText : Bytes → Bool → Prop where
  | unsigned : SignText [] false
  | plus : SignText ['+'.toUInt8] false
  | minus : SignText ['-'.toUInt8] true

inductive RadixText : Bytes → Radix → Prop where
  | unmarked : RadixText [] .decimal
  | marked {letter : UInt8} {radix : Radix} :
      radixOfLetter? letter = some radix → RadixText ['0'.toUInt8, letter] radix

/-- Digits of a radix, with underscores anywhere among them. -/
inductive DigitsText (radix : Radix) : Bytes → List Nat → Prop where
  | nil : DigitsText radix [] []
  | underscore {text : Bytes} {digits : List Nat} :
      DigitsText radix text digits → DigitsText radix (Ascii.underscore :: text) digits
  | digit {byte : UInt8} {digit : Nat} {text : Bytes} {digits : List Nat} :
      radix.digitValue byte = some digit →
      DigitsText radix text digits →
      DigitsText radix (byte :: text) (digit :: digits)

inductive LiteralText (negative : Bool) (radix : Radix) (digits : List Nat) : Bytes → Prop where
  | parts {sign mark body : Bytes} :
      SignText sign negative →
      RadixText mark radix →
      DigitsText radix body digits →
      LiteralText negative radix digits (sign ++ (mark ++ body))

variable {radix : Radix}

/-- The letters that tell a radix could stand in a word, but not among decimal digits. -/
theorem letter_of_radixOfLetter {letter : UInt8} (told : radixOfLetter? letter = some radix) :
    Ascii.continuesWord letter = true ∧ Radix.decimal.digitValue letter = none ∧
      letter ≠ Ascii.underscore := by
  unfold radixOfLetter? at told
  split at told
  · next hexadecimal => rcases hexadecimal with rfl | rfl <;> decide
  · split at told
    · next octal => rcases octal with rfl | rfl <;> decide
    · split at told
      · next binary => rcases binary with rfl | rfl <;> decide
      · cases told

namespace DigitsText

theorem take {text : Bytes} {digits : List Nat} (shown : DigitsText radix text digits)
    (count : Nat) : ∃ fewer, DigitsText radix (text.take count) fewer := by
  induction shown generalizing count with
  | nil => exact ⟨[], by simpa using .nil⟩
  | underscore _ induction =>
      cases count with
      | zero => exact ⟨[], .nil⟩
      | succ count =>
          obtain ⟨fewer, shown⟩ := induction count
          exact ⟨fewer, .underscore shown⟩
  | digit valued _ induction =>
      cases count with
      | zero => exact ⟨[], .nil⟩
      | succ count =>
          obtain ⟨fewer, shown⟩ := induction count
          exact ⟨_, .digit valued shown⟩

end DigitsText

theorem digits_of_apart {rest : Bytes} (apart : Apart rest) : digits radix rest = ⟨[], 0⟩ := by
  cases rest with
  | nil => rfl
  | cons byte rest =>
      have breaks := apart byte rfl
      have notUnderscore : byte ≠ Ascii.underscore := by
        intro same
        subst same
        cases breaks
      rw [digits, if_neg notUnderscore]
      cases valued : radix.digitValue byte with
      | none => rfl
      | some digit =>
          have continues :=
            Ascii.continuesWord_of_hexDigitValue (Radix.digitValue_eq_some valued).1
          rw [breaks] at continues
          cases continues

theorem digits_of_text {text : Bytes} {found : List Nat} (shown : DigitsText radix text found)
    {rest : Bytes} (apart : Apart rest) :
    digits radix (text ++ rest) = ⟨found, text.length⟩ := by
  induction shown with
  | nil => exact digits_of_apart apart
  | @underscore text found _ induction =>
      rw [List.cons_append, digits, if_pos rfl, induction, List.length_cons, Nat.add_comm]
      rfl
  | @digit byte digit text found valued _ induction =>
      have notUnderscore : byte ≠ Ascii.underscore := by
        intro same
        subst same
        rw [Radix.digitValue_underscore] at valued
        cases valued
      rw [List.cons_append, digits, if_neg notUnderscore, valued]
      simp only [induction, List.length_cons, Nat.add_comm text.length]
      rfl

theorem exists_digitsText (radix : Radix) (text : Bytes) :
    ∃ body rest, text = body ++ rest ∧ body.length = (digits radix text).width ∧
      DigitsText radix body (digits radix text).value := by
  induction text with
  | nil => exact ⟨[], [], rfl, rfl, .nil⟩
  | cons byte text induction =>
      obtain ⟨body, rest, rfl, length, shown⟩ := induction
      rw [digits]
      split
      · next isUnderscore =>
          subst isUnderscore
          refine ⟨Ascii.underscore :: body, rest, rfl, ?_, .underscore shown⟩
          simp [length, Nat.add_comm]
      · split
        · next digit valued =>
            refine ⟨byte :: body, rest, rfl, ?_, .digit valued shown⟩
            simp [length, Nat.add_comm]
        · exact ⟨[], _, rfl, rfl, .nil⟩

theorem radix_unmarked {second : UInt8} (untold : radixOfLetter? second = none) (first : UInt8)
    (behind : Bytes) : Number.radix (first :: second :: behind) = ⟨.decimal, 0⟩ := by
  rw [Number.radix, untold]
  split <;> rfl

/-- What may stand in a decimal body, or behind it, tells no radix. -/
theorem radixOfLetter_eq_none {second : UInt8}
    (allowed : Ascii.continuesWord second = false ∨ second = Ascii.underscore ∨
      ∃ digit, Radix.decimal.digitValue second = some digit) :
    radixOfLetter? second = none := by
  cases letter : radixOfLetter? second with
  | none => rfl
  | some radix =>
      obtain ⟨continues, noDigit, notUnderscore⟩ := letter_of_radixOfLetter letter
      rcases allowed with breaks | same | ⟨digit, valued⟩
      · rw [breaks] at continues
        cases continues
      · exact (notUnderscore same).elim
      · rw [valued] at noDigit
        cases noDigit

/-- Behind its first byte a body of decimal digits tells no radix. -/
theorem radix_of_behind (first : UInt8) {later rest : Bytes} {found : List Nat}
    (shown : DigitsText .decimal later found) (apart : Apart rest) :
    Number.radix (first :: (later ++ rest)) = ⟨.decimal, 0⟩ := by
  cases shown with
  | nil =>
      cases rest with
      | nil => rfl
      | cons second behind =>
          have breaks := apart second rfl
          exact radix_unmarked (radixOfLetter_eq_none (.inl breaks)) first behind
  | underscore => exact radix_unmarked (radixOfLetter_eq_none (.inr (.inl rfl))) first _
  | digit valued =>
      exact radix_unmarked (radixOfLetter_eq_none (.inr (.inr ⟨_, valued⟩))) first _

/-- A body of decimal digits is not taken for a radix mark. -/
theorem radix_of_body {body rest : Bytes} {found : List Nat}
    (shown : DigitsText .decimal body found) (apart : Apart rest) :
    Number.radix (body ++ rest) = ⟨.decimal, 0⟩ := by
  cases shown with
  | nil =>
      cases rest with
      | nil => rfl
      | cons first behind =>
          have notZero : first ≠ '0'.toUInt8 := by
            intro same
            have breaks := apart first rfl
            rw [same] at breaks
            cases breaks
          unfold Number.radix
          split
          · next equal =>
              cases equal
              rw [if_neg notZero]
          · rfl
  | underscore shown => exact radix_of_behind _ shown apart
  | digit _ shown => exact radix_of_behind _ shown apart

theorem radix_of_text {mark body rest : Bytes} {found : List Nat} (marked : RadixText mark radix)
    (shown : DigitsText radix body found) (apart : Apart rest) :
    Number.radix (mark ++ (body ++ rest)) = ⟨radix, mark.length⟩ := by
  cases marked with
  | unmarked => exact @radix_of_body body rest found shown apart
  | marked told =>
      simp only [List.cons_append, List.nil_append, Number.radix, if_true, told]
      rfl

/-- Neither a radix mark nor a digit is a sign. -/
theorem isSign_head {mark body : Bytes} {found : List Nat} (marked : RadixText mark radix)
    (shown : DigitsText radix body found) :
    ∀ byte, (mark ++ body).head? = some byte → isSign byte = false := by
  intro byte front
  cases marked with
  | marked told =>
      cases front
      rfl
  | unmarked =>
      cases shown with
      | nil => cases front
      | underscore shown =>
          cases front
          rfl
      | digit valued shown =>
          cases front
          exact Radix.isSign_of_digitValue valued

theorem sign_of_text {sign unsigned : Bytes} {negative : Bool} (signed : SignText sign negative)
    (further : sign = [] → ∀ byte, unsigned.head? = some byte → isSign byte = false) :
    Number.sign (sign ++ unsigned) = ⟨negative, sign.length⟩ := by
  cases signed with
  | plus => rfl
  | minus => rfl
  | unsigned =>
      cases unsigned with
      | nil => rfl
      | cons byte rest =>
          have noSign := further rfl byte rfl
          simp [Number.sign, noSign]

/-- A literal is read as a whole where nothing continues it. -/
theorem scan_of_text {negative : Bool} {found : List Nat} {text rest : Bytes}
    (shown : LiteralText negative radix found text) (nonempty : text ≠ []) (apart : Apart rest) :
    scan (text ++ rest) = ⟨judge negative radix found rest.head?, text.length⟩ := by
  cases shown with
  | @parts sign mark body signed marked digitsShown =>
      have signRead : Number.sign (sign ++ (mark ++ (body ++ rest))) = ⟨negative, sign.length⟩ := by
        apply sign_of_text signed
        intro unsigned byte front
        have inside : mark ++ body ≠ [] := by
          rw [unsigned] at nonempty
          exact nonempty
        have first := List.head?_eq_some_head inside
        rw [← List.append_assoc, List.head?_append, first, Option.some_or] at front
        exact isSign_head marked digitsShown byte (first.trans front)
      have radixRead := radix_of_text marked digitsShown apart
      have digitsRead := digits_of_text digitsShown apart
      rw [List.append_assoc, List.append_assoc]
      unfold scan
      simp only [signRead, List.drop_left, radixRead, digitsRead, List.length_append,
        Nat.add_assoc]

/-- The number that a literal denotes. -/
def literalValue (negative : Bool) (radix : Radix) (digits : List Nat) : Int :=
  if negative then -(radix.value digits : Int) else radix.value digits

/-- Cutting a magnitude down to the limit changes no number that is in range. -/
theorem inRange_limited_iff {negative : Bool} {magnitude : Nat} {value : Int} :
    (InRange (if negative then -((min magnitudeLimit magnitude : Nat) : Int)
        else (min magnitudeLimit magnitude : Nat)) ∧
      (if negative then -((min magnitudeLimit magnitude : Nat) : Int)
        else (min magnitudeLimit magnitude : Nat)) = value) ↔
      InRange value ∧ value = if negative then -(magnitude : Int) else magnitude := by
  unfold InRange magnitudeLimit
  cases negative with
  | false =>
      simp only [Bool.false_eq_true, if_false]
      omega
  | true =>
      simp only [if_true]
      omega

theorem judge_eq_ok_iff {negative : Bool} {found : List Nat} {next : Option UInt8} {value : Int} :
    judge negative radix found next = .ok value ↔
      found ≠ [] ∧ ¬ (radix = .decimal ∧ next.any continuesFraction = true) ∧
        next.filter Ascii.continuesWord = none ∧ InRange value ∧
        value = literalValue negative radix found := by
  unfold judge literalValue
  rw [← inRange_limited_iff]
  simp only [radix.valueUpTo_eq]
  generalize (if negative then -((min magnitudeLimit (radix.value found) : Nat) : Int)
    else (min magnitudeLimit (radix.value found) : Nat)) = limited
  split
  · next empty => simp [empty]
  · next nonempty =>
      split
      · next fraction => simp [fraction]
      · next whole =>
          split
          · next byte continues => simp [continues]
          · next apart =>
              split
              · next inRange => simp [nonempty, whole, apart, inRange]
              · next outside => simp [outside]

/-- Behind a literal that nothing continues, only its number is left to be judged. -/
theorem judge_of_ended {negative : Bool} {found : List Nat} {next : Option UInt8}
    (nonempty : found ≠ [])
    (whole : ¬ (radix = .decimal ∧ next.any continuesFraction = true))
    (ended : next.filter Ascii.continuesWord = none) :
    judge negative radix found next =
      if InRange (literalValue negative radix found) then
        .ok (literalValue negative radix found)
      else .error .integerOutOfRange := by
  split
  · next inRange => exact judge_eq_ok_iff.mpr ⟨nonempty, whole, ended, inRange, rfl⟩
  · next outside =>
      have refused : ∀ value, judge negative radix found next ≠ .ok value := by
        intro value judged
        obtain ⟨_, _, _, inRange, rfl⟩ := judge_eq_ok_iff.mp judged
        exact outside inRange
      unfold judge at refused ⊢
      rw [if_neg nonempty, if_neg whole, ended] at refused ⊢
      simp only at refused ⊢
      generalize (if negative then -(radix.valueUpTo magnitudeLimit found : Int)
        else radix.valueUpTo magnitudeLimit found) = limited at refused ⊢
      by_cases inRange : InRange limited
      · rw [if_pos inRange] at refused
        exact (refused limited rfl).elim
      · rw [if_neg inRange]

/-- Nothing stands at the front that could continue a literal of the radix: no byte that could
stand in a word and, behind decimal digits, no point. -/
def Ends (radix : Radix) (rest : Bytes) : Prop :=
  ∀ byte, rest.head? = some byte →
    Ascii.continuesWord byte = false ∧ (radix = .decimal → byte ≠ '.'.toUInt8)

namespace Ends

variable {rest : Bytes}

theorem apart (ends : Ends radix rest) : Apart rest := by
  intro byte front
  exact (ends byte front).1

theorem filter_eq_none (ends : Ends radix rest) :
    rest.head?.filter Ascii.continuesWord = none := by
  rw [Option.filter_eq_none_iff]
  intro byte front
  rw [ends.apart byte front]
  exact Bool.false_ne_true

/-- The letter of an exponent could stand in a word, so only the point is left to be told. -/
theorem not_fraction (ends : Ends radix rest) :
    ¬ (radix = .decimal ∧ rest.head?.any continuesFraction = true) := by
  intro fraction
  obtain ⟨byte, front, continues⟩ := (Option.any_eq_true _ _).mp fraction.2
  obtain ⟨apart, notDot⟩ := ends byte front
  rcases Bool.or_eq_true_iff.mp continues with dotOrLower | upper
  · rcases Bool.or_eq_true_iff.mp dotOrLower with dot | lower
    · exact notDot fraction.1 (beq_iff_eq.mp dot)
    · rw [beq_iff_eq.mp lower] at apart
      cases apart
  · rw [beq_iff_eq.mp upper] at apart
    cases apart

end Ends

theorem exists_signText (text : Bytes) :
    ∃ sign rest, text = sign ++ rest ∧ sign.length = (Number.sign text).width ∧
      SignText sign (Number.sign text).value := by
  cases text with
  | nil => exact ⟨[], [], rfl, rfl, .unsigned⟩
  | cons byte rest =>
      by_cases minus : byte = '-'.toUInt8
      · subst minus
        exact ⟨['-'.toUInt8], rest, rfl, rfl, .minus⟩
      · by_cases plus : byte = '+'.toUInt8
        · subst plus
          exact ⟨['+'.toUInt8], rest, rfl, rfl, .plus⟩
        · have noSign : isSign byte = false := by simp [isSign, minus, plus]
          refine ⟨[], byte :: rest, rfl, ?_, ?_⟩
          · simp [Number.sign, noSign]
          · simpa [Number.sign, noSign] using .unsigned

theorem exists_radixText (text : Bytes) :
    ∃ mark rest, text = mark ++ rest ∧ mark.length = (Number.radix text).width ∧
      RadixText mark (Number.radix text).value := by
  unfold Number.radix
  split
  · next first letter rest =>
      split
      · next zero =>
          split
          · next radix told =>
              exact ⟨[first, letter], rest, rfl, rfl, zero ▸ .marked told⟩
          · exact ⟨[], _, rfl, rfl, .unmarked⟩
      · exact ⟨[], _, rfl, rfl, .unmarked⟩
  · exact ⟨[], _, rfl, rfl, .unmarked⟩

/-- Whatever is read as an integer is a literal that nothing continues. -/
theorem exists_literalText {text : Bytes} {value : Int} {width : Nat}
    (read : scan text = ⟨.ok value, width⟩) :
    ∃ used rest negative radix found, text = used ++ rest ∧ used.length = width ∧
      LiteralText negative radix found used ∧ Apart rest ∧
      judge negative radix found rest.head? = .ok value := by
  obtain ⟨sign, unsigned, split, signLength, signed⟩ := exists_signText text
  obtain ⟨mark, written, splitUnsigned, markLength, marked⟩ := exists_radixText unsigned
  obtain ⟨body, rest, splitWritten, bodyLength, shown⟩ :=
    exists_digitsText (Number.radix unsigned).value written
  have behindSign : text.drop (Number.sign text).width = unsigned := by
    rw [← signLength, split, List.drop_left]
  have behindMark : unsigned.drop (Number.radix unsigned).width = written := by
    rw [← markLength, splitUnsigned, List.drop_left]
  unfold scan at read
  simp only [behindSign, behindMark] at read
  have behindBody : written.drop (digits (Number.radix unsigned).value written).width = rest := by
    rw [← bodyLength, splitWritten, List.drop_left]
  simp only [behindBody, Span.mk.injEq] at read
  obtain ⟨judged, width⟩ := read
  refine ⟨sign ++ (mark ++ body), rest, _, _, _, ?_, ?_, .parts signed marked shown, ?_, judged⟩
  · rw [split, splitUnsigned, splitWritten, List.append_assoc, List.append_assoc]
  · simp only [List.length_append, signLength, markLength, bodyLength]
    omega
  · obtain ⟨_, _, apart, _⟩ := judge_eq_ok_iff.mp judged
    intro byte front
    rw [front] at apart
    simpa using apart

/-- A radix mark that is cut off leaves a zero. -/
theorem take_unsigned {mark body : Bytes} {found : List Nat} (marked : RadixText mark radix)
    (shown : DigitsText radix body found) (count : Nat) :
    ∃ radix found mark' body', (mark ++ body).take count = mark' ++ body' ∧
      RadixText mark' radix ∧ DigitsText radix body' found := by
  cases marked with
  | unmarked =>
      obtain ⟨fewer, shown⟩ := shown.take count
      exact ⟨_, fewer, [], body.take count, rfl, .unmarked, shown⟩
  | @marked letter _ told =>
      match count with
      | 0 => exact ⟨_, [], [], [], rfl, .unmarked, .nil⟩
      | 1 => exact ⟨_, [0], [], ['0'.toUInt8], rfl, .unmarked, .digit rfl .nil⟩
      | count + 2 =>
          obtain ⟨fewer, shown⟩ := shown.take count
          exact ⟨_, fewer, ['0'.toUInt8, letter], body.take count, rfl, .marked told, shown⟩

/-- What a cut leaves of a literal is a literal, perhaps one without digits. -/
theorem LiteralText.take {negative : Bool} {found : List Nat} {text : Bytes}
    (shown : LiteralText negative radix found text) (count : Nat) :
    ∃ negative radix found, LiteralText negative radix found (text.take count) := by
  have signed : ∀ {byte : UInt8} {negative : Bool} {mark body : Bytes} {found : List Nat},
      SignText [byte] negative → RadixText mark radix → DigitsText radix body found →
      ∃ negative radix found,
        LiteralText negative radix found (([byte] ++ (mark ++ body)).take count) := by
    intro byte negative mark body found signed marked digitsShown
    cases count with
    | zero => exact ⟨false, .decimal, [], .parts .unsigned .unmarked .nil⟩
    | succ count =>
        obtain ⟨radix, found, mark', body', left, marked, digitsShown⟩ :=
          take_unsigned marked digitsShown count
        refine ⟨negative, radix, found, ?_⟩
        rw [List.singleton_append, List.take_succ_cons, left]
        exact .parts signed marked digitsShown
  cases shown with
  | @parts sign mark body sign' marked digitsShown =>
      cases sign' with
      | plus => exact signed .plus marked digitsShown
      | minus => exact signed .minus marked digitsShown
      | unsigned =>
          obtain ⟨radix, found, mark', body', left, marked, digitsShown⟩ :=
            take_unsigned marked digitsShown count
          refine ⟨false, radix, found, ?_⟩
          rw [List.nil_append, left]
          exact .parts .unsigned marked digitsShown

end Number

end Source

end OpcodeCatalog

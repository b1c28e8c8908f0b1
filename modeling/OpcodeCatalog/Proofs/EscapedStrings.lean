import OpcodeCatalog.Proofs.ScannedLiterals
import Mathlib.Data.List.Forall2

/-!
# Escapes in quoted strings

The body of a quoted string is a sequence of parts: plain bytes, escapes of one
letter, of a byte and of a code point.  Each part is read in front of whatever
follows it, so a body means what its parts mean, one behind the other.  A code
point escape that is malformed is refused behind every such body.
-/

namespace OpcodeCatalog.Source.Quoted

/-- The bytes of a scalar value in UTF-8: its bits in groups of six, most significant first, behind
the lead byte that tells how many follow.  Of the four forms only the shortest is allowed. -/
inductive Utf8Text (scalar : Nat) : Bytes → Prop where
  | one : scalar < 0x80 → Utf8Text scalar [scalar.toUInt8]
  | two {lead low : Nat} :
      0x80 ≤ scalar →
      scalar = 0x40 * lead + low →
      lead < 0x20 → low < 0x40 →
      Utf8Text scalar [(0xC0 + lead).toUInt8, (0x80 + low).toUInt8]
  | three {lead middle low : Nat} :
      0x800 ≤ scalar →
      scalar = 0x40 * (0x40 * lead + middle) + low →
      lead < 0x10 → middle < 0x40 → low < 0x40 →
      Utf8Text scalar [(0xE0 + lead).toUInt8, (0x80 + middle).toUInt8, (0x80 + low).toUInt8]
  | four {lead high middle low : Nat} :
      0x10000 ≤ scalar →
      scalar = 0x40 * (0x40 * (0x40 * lead + high) + middle) + low →
      lead < 0x08 → high < 0x40 → middle < 0x40 → low < 0x40 →
      Utf8Text scalar
        [(0xF0 + lead).toUInt8, (0x80 + high).toUInt8, (0x80 + middle).toUInt8,
          (0x80 + low).toUInt8]

theorem Utf8Text.eq_utf8EncodeChar {char : Char} {encoded : Bytes}
    (shown : Utf8Text char.toNat encoded) : encoded = String.utf8EncodeChar char := by
  have value : char.val.toNat = char.toNat := rfl
  rw [String.utf8EncodeChar.eq_1, value]
  cases shown with
  | one small => rw [if_pos (by omega)]
  | @two lead low least grouped leadSmall lowSmall =>
      have leadBits : char.toNat / 64 % 32 + 192 = 0xC0 + lead := by omega
      have lowBits : char.toNat % 64 + 128 = 0x80 + low := by omega
      rw [if_neg (by omega), if_pos (by omega), leadBits, lowBits]
  | @three lead middle low least grouped leadSmall middleSmall lowSmall =>
      have leadBits : char.toNat / 4096 % 16 + 224 = 0xE0 + lead := by omega
      have middleBits : char.toNat / 64 % 64 + 128 = 0x80 + middle := by omega
      have lowBits : char.toNat % 64 + 128 = 0x80 + low := by omega
      rw [if_neg (by omega), if_neg (by omega), if_pos (by omega), leadBits, middleBits, lowBits]
  | @four lead high middle low least grouped leadSmall highSmall middleSmall lowSmall =>
      have leadBits : char.toNat / 262144 % 8 + 240 = 0xF0 + lead := by omega
      have highBits : char.toNat / 4096 % 64 + 128 = 0x80 + high := by omega
      have middleBits : char.toNat / 64 % 64 + 128 = 0x80 + middle := by omega
      have lowBits : char.toNat % 64 + 128 = 0x80 + low := by omega
      rw [if_neg (by omega), if_neg (by omega), if_neg (by omega), leadBits, highBits, middleBits,
        lowBits]

theorem exists_utf8Text {scalar : Nat} (small : scalar < 0x110000) :
    ∃ encoded, Utf8Text scalar encoded := by
  rcases Nat.lt_or_ge scalar 0x80 with one | beyondOne
  · exact ⟨_, .one one⟩
  rcases Nat.lt_or_ge scalar 0x800 with two | beyondTwo
  · have grouped : scalar = 0x40 * (scalar / 0x40) + scalar % 0x40 := by omega
    exact ⟨_, .two beyondOne grouped (by omega) (by omega)⟩
  rcases Nat.lt_or_ge scalar 0x10000 with three | beyondThree
  · have grouped : scalar = 0x40 * (0x40 * (scalar / 0x1000) + scalar / 0x40 % 0x40) +
        scalar % 0x40 := by omega
    exact ⟨_, .three beyondTwo grouped (by omega) (by omega) (by omega)⟩
  · have grouped : scalar = 0x40 * (0x40 * (0x40 * (scalar / 0x40000) + scalar / 0x1000 % 0x40) +
        scalar / 0x40 % 0x40) + scalar % 0x40 := by omega
    exact ⟨_, .four beyondThree grouped (by omega) (by omega) (by omega) (by omega)⟩

/-- Every character has exactly one text. -/
theorem utf8Text_iff {char : Char} {encoded : Bytes} :
    Utf8Text char.toNat encoded ↔ encoded = String.utf8EncodeChar char := by
  constructor
  · exact Utf8Text.eq_utf8EncodeChar
  · rintro rfl
    have small : char.toNat < 0x110000 := by
      rcases char.valid with below | ⟨_, above⟩
      · exact Nat.lt_trans below (by decide)
      · exact above
    obtain ⟨encoded, shown⟩ := exists_utf8Text small
    rwa [← shown.eq_utf8EncodeChar]

/-- A hexadecimal digit in either case. -/
def ShowsDigit (byte : UInt8) (digit : Nat) : Prop :=
  digit < 16 ∧ ∃ letters, digitByte letters digit = byte

/-- The digits of a number in hexadecimal, leading zeros among them. -/
def ShowsDigits (text : Bytes) (digits : List Nat) : Prop :=
  List.Forall₂ ShowsDigit text digits

/-- A code point escape, without its backslash. -/
def codePoint (text : Bytes) : Bytes :=
  'u'.toUInt8 :: '{'.toUInt8 :: (text ++ ['}'.toUInt8])

/-- One part of a body, and what it means. -/
inductive PartText : Bytes → Bytes → Prop where
  | plain {byte : UInt8} :
      byte ≠ Ascii.quote → byte ≠ Ascii.backslash →
      PartText [byte] [byte]
  | letter {letter byte : UInt8} :
      escapedByLetter? letter = some byte →
      PartText [Ascii.backslash, letter] [byte]
  | byte {highByte lowByte : UInt8} {high low : Nat} :
      ShowsDigit highByte high → ShowsDigit lowByte low →
      PartText [Ascii.backslash, 'x'.toUInt8, highByte, lowByte] [(16 * high + low).toUInt8]
  | scalar {char : Char} {text encoded : Bytes} {digits : List Nat} :
      ShowsDigits text digits →
      text ≠ [] → text.length ≤ 6 →
      Radix.hexadecimal.value digits = char.toNat →
      Utf8Text char.toNat encoded →
      PartText (Ascii.backslash :: codePoint text) encoded

/-- The body of a string: one part behind the other. -/
inductive BodyText : Bytes → Bytes → Prop where
  | nil : BodyText [] []
  | cons {part meaning text read : Bytes} :
      PartText part meaning →
      BodyText text read →
      BodyText (part ++ text) (meaning ++ read)

def literal (body : Bytes) : Bytes :=
  Ascii.quote :: (body ++ [Ascii.quote])

/-- What stands behind `\u` and is no code point in braces. -/
inductive MalformedCodePoint : Bytes → Prop where
  | unopened {rest : Bytes} : rest.head? ≠ some '{'.toUInt8 → MalformedCodePoint rest
  | noDigits {rest : Bytes} : MalformedCodePoint ('{'.toUInt8 :: '}'.toUInt8 :: rest)
  | tooMany {text rest : Bytes} {digits : List Nat} :
      ShowsDigits text digits →
      6 < text.length →
      MalformedCodePoint ('{'.toUInt8 :: (text ++ rest))
  | notHexadecimal {text rest : Bytes} {digits : List Nat} {byte : UInt8} :
      ShowsDigits text digits →
      byte ≠ '}'.toUInt8 → (∀ digit, ¬ ShowsDigit byte digit) →
      MalformedCodePoint ('{'.toUInt8 :: (text ++ byte :: rest))
  | unclosed {text : Bytes} {digits : List Nat} :
      ShowsDigits text digits →
      MalformedCodePoint ('{'.toUInt8 :: text)
  | noScalar {text rest : Bytes} {digits : List Nat} {number : Nat} :
      ShowsDigits text digits →
      Radix.hexadecimal.value digits = number →
      (0xD800 ≤ number ∧ number ≤ 0xDFFF) ∨ 0x10FFFF < number →
      MalformedCodePoint ('{'.toUInt8 :: (text ++ '}'.toUInt8 :: rest))

section Digits

variable {byte : UInt8} {digit : Nat} {text rest : Bytes} {digits : List Nat}

theorem showsDigit_iff : ShowsDigit byte digit ↔ hexDigitValue byte = some digit :=
  hexDigitValue_eq_some_iff.symm

/-- A text is read as digits one byte after the other. -/
theorem ShowsDigits.of_values (values : text.map hexDigitValue = digits.map some) :
    ShowsDigits text digits := by
  rw [← List.forall₂_eq_eq_eq, List.forall₂_map_left_iff, List.forall₂_map_right_iff] at values
  exact values.imp fun _ _ => showsDigit_iff.mpr

theorem ShowsDigit.ne_brace (shown : ShowsDigit byte digit) : byte ≠ '}'.toUInt8 := by
  rintro rfl
  cases showsDigit_iff.mp shown

theorem bracedDigits_of_shown (shown : ShowsDigit byte digit) (room : Nat) (rest : Bytes) :
    bracedDigits (room + 1) (byte :: rest) =
      ((bracedDigits room rest).map (·.map (digit :: ·))).after 1 :=
  bracedDigits_digit shown.ne_brace (showsDigit_iff.mp shown) room rest

theorem bracedDigits_no_room (shown : ShowsDigit byte digit) (rest : Bytes) :
    bracedDigits 0 (byte :: rest) = ⟨none, 1⟩ := by
  rw [bracedDigits.eq_def]
  exact if_neg shown.ne_brace

/-- With room for them, the digits are read up to the brace. -/
theorem bracedDigits_closed (shown : ShowsDigits text digits) {room : Nat}
    (enough : text.length ≤ room) (rest : Bytes) :
    bracedDigits room (text ++ '}'.toUInt8 :: rest) = ⟨some digits, 1 + text.length⟩ := by
  induction shown generalizing room with
  | nil => exact bracedDigits_closing room rest
  | @cons byte digit text digits first _ induction =>
      cases room with
      | zero => cases enough
      | succ room =>
          rw [List.cons_append, bracedDigits_of_shown first,
            induction (Nat.le_of_succ_le_succ enough), List.length_cons, Nat.add_comm text.length]
          rfl

/-- Digits lead to no brace if there are too many of them, or if what follows them leads to none. -/
theorem bracedDigits_open (shown : ShowsDigits text digits) {room : Nat}
    (stuck : room < text.length ∨ ∀ room, (bracedDigits room rest).value = none) :
    (bracedDigits room (text ++ rest)).value = none := by
  induction shown generalizing room with
  | nil =>
      rcases stuck with few | stuck
      · cases few
      · exact stuck room
  | @cons byte digit text digits first _ induction =>
      rw [List.cons_append]
      cases room with
      | zero => rw [bracedDigits_no_room first]
      | succ room =>
          have stuckLater : (bracedDigits room (text ++ rest)).value = none :=
            induction (stuck.imp_left Nat.lt_of_succ_lt_succ)
          rw [bracedDigits_of_shown first, Span.value_after, Span.value_map, stuckLater]
          rfl

theorem codePointEscape_of_none (stuck : (bracedDigits 6 rest).value.bind encodeScalar? = none) :
    (codePointEscape ('{'.toUInt8 :: rest)).value = .error .malformedCodePointEscape := by
  simp only [codePointEscape, if_true, stuck]

theorem encodeScalar?_of_char {char : Char} (nonempty : digits ≠ [])
    (value : Radix.hexadecimal.value digits = char.toNat) :
    encodeScalar? digits = some (String.utf8EncodeChar char) := by
  unfold encodeScalar?
  rw [value, if_pos ⟨nonempty, char.valid⟩, Char.ofNat_toNat]

theorem escape_codePoint {char : Char} (shown : ShowsDigits text digits) (nonempty : text ≠ [])
    (short : text.length ≤ 6) (value : Radix.hexadecimal.value digits = char.toNat)
    (rest : Bytes) :
    Scans escape (codePoint text ++ rest) (String.utf8EncodeChar char)
      (codePoint text).length := by
  have someDigits : digits ≠ [] := by
    rintro rfl
    cases shown
    exact nonempty rfl
  have split : codePoint text ++ rest =
      'u'.toUInt8 :: '{'.toUInt8 :: (text ++ '}'.toUInt8 :: rest) := by
    simp only [codePoint, List.cons_append, List.append_assoc, List.nil_append]
  have read : codePointEscape ('{'.toUInt8 :: (text ++ '}'.toUInt8 :: rest)) =
      ⟨.ok (String.utf8EncodeChar char), 1 + (1 + text.length)⟩ := by
    simp only [codePointEscape, if_true, bracedDigits_closed shown short, Option.bind_some,
      encodeScalar?_of_char someDigits value]
  have wide : (codePoint text).length = 1 + (1 + (1 + text.length)) := by
    simp only [codePoint, List.length_cons, List.length_append, List.length_nil]
    omega
  rw [split, wide]
  change (codePointEscape _).after 1 = _
  rw [read]
  rfl

theorem encodeScalar?_of_outside {number : Nat} (value : Radix.hexadecimal.value digits = number)
    (outside : (0xD800 ≤ number ∧ number ≤ 0xDFFF) ∨ 0x10FFFF < number) :
    encodeScalar? digits = none := by
  unfold encodeScalar?
  rw [value]
  apply if_neg
  rintro ⟨_, below | above⟩ <;> omega

end Digits

theorem MalformedCodePoint.refused {rest : Bytes} (malformed : MalformedCodePoint rest) :
    (codePointEscape rest).value = .error .malformedCodePointEscape := by
  cases malformed with
  | unopened other =>
      cases rest with
      | nil => rfl
      | cons opening rest =>
          have unopened : opening ≠ '{'.toUInt8 := by
            rintro rfl
            exact other rfl
          rw [codePointEscape, if_neg unopened]
  | noDigits =>
      apply codePointEscape_of_none
      rw [bracedDigits_closing]
      rfl
  | tooMany shown many =>
      apply codePointEscape_of_none
      rw [bracedDigits_open shown (.inl many)]
      rfl
  | @notHexadecimal text rest digits byte shown inside other =>
      have stuck : ∀ room, (bracedDigits room (byte :: rest)).value = none := by
        intro room
        have valueless : hexDigitValue byte = none := by
          apply Option.eq_none_iff_forall_ne_some.mpr
          intro digit valued
          exact other digit (showsDigit_iff.mpr valued)
        rw [bracedDigits.eq_def]
        simp only [if_neg inside, valueless]
      apply codePointEscape_of_none
      rw [bracedDigits_open shown (.inr stuck)]
      rfl
  | @unclosed text digits shown =>
      have stuck : ∀ room, (bracedDigits room []).value = none := by
        intro room
        rw [bracedDigits]
      apply codePointEscape_of_none
      rw [← List.append_nil text, bracedDigits_open shown (.inr stuck)]
      rfl
  | @noScalar text rest digits number shown value outside =>
      apply codePointEscape_of_none
      rcases Nat.lt_or_ge 6 text.length with many | enough
      · rw [bracedDigits_open shown (.inl many)]
        rfl
      · rw [bracedDigits_closed shown enough]
        exact encodeScalar?_of_outside value outside

/-- A part is read as what it means, in front of whatever follows it. -/
theorem PartText.scan_append {part meaning : Bytes} (told : PartText part meaning) (rest : Bytes) :
    scan (part ++ rest) = ((scan rest).map (·.map (meaning ++ ·))).after part.length := by
  cases told with
  | plain notQuote notBackslash => exact scan_plain notQuote notBackslash rest
  | letter known =>
      refine scan_letter _ known ⟨?_, ?_⟩ rest
      · rintro rfl
        cases known
      · rintro rfl
        cases known
  | byte high low =>
      exact scan_byteEscape (showsDigit_iff.mp high) (showsDigit_iff.mp low) rest
  | @scalar char text _ digits shown nonempty short value shownChar =>
      have read := escape_codePoint shown nonempty short value rest
      rw [← shownChar.eq_utf8EncodeChar] at read
      rw [List.cons_append, scan_escape read, List.drop_left, List.length_cons, Nat.add_comm]

section Body

variable {text read : Bytes}

/-- A body is read as what its parts mean, up to the quote that closes it. -/
theorem BodyText.scans (body : BodyText text read) (rest : Bytes) :
    Scans scan (text ++ Ascii.quote :: rest) read (text.length + 1) := by
  induction body with
  | nil => exact scan_closing rest
  | @cons part meaning text read told _ induction =>
      rw [List.append_assoc, Scans, told.scan_append, induction]
      apply Span.after_map_eq_ok_iff.mpr
      exact ⟨read, text.length + 1, rfl, rfl, by rw [List.length_append, Nat.add_assoc]⟩

/-- Whatever body comes before it, a fault is found. -/
theorem BodyText.faulty (body : BodyText text read) {rest : Bytes} {fault : LexicalFault}
    (faulty : (scan rest).value = .error fault) : (scan (text ++ rest)).value = .error fault := by
  induction body with
  | nil => exact faulty
  | cons told _ induction =>
      rw [List.append_assoc, told.scan_append, Span.value_after, Span.value_map, induction]
      rfl

theorem MalformedCodePoint.scan_eq {behind : Bytes} (malformed : MalformedCodePoint behind) :
    (scan (Ascii.backslash :: 'u'.toUInt8 :: behind)).value =
      .error .malformedCodePointEscape := by
  have refused : (escape ('u'.toUInt8 :: behind)).value = .error .malformedCodePointEscape :=
    malformed.refused
  rw [scan]
  simp only [show Ascii.backslash ≠ Ascii.quote by decide, if_false, if_true, refused]

/-- A string of parts is handed out as what they mean, and uses up its own bytes only.  Behind any
parts, a malformed code point escape is a fault that is found where the string starts. -/
theorem next_of_parts (file : UInt32) (position : Position) (body : BodyText text read)
    (rest : Bytes) :
    let scanner : Scanner := { file, position, rest := literal text ++ rest }
    let after : Scanner := { file, position := position.behind (literal text), rest }
    scanner.next = (.token ⟨.string read, scanner.location⟩, after) ∧
      ∀ behind, MalformedCodePoint behind →
        let scanner : Scanner :=
          { file, position
            rest := Ascii.quote :: (text ++ Ascii.backslash :: 'u'.toUInt8 :: behind) }
        ∃ fault last, fault.message = ascii "malformed \\u escape" ∧
          scanner.next = (.ending ⟨some fault, scanner.location⟩, last) := by
  intro scanner after
  constructor
  · have front : scanner.rest = Ascii.quote :: (text ++ Ascii.quote :: rest) := by
      simp only [scanner, literal, List.cons_append, List.append_assoc, List.nil_append]
    have wide : (literal text).length = 1 + (text.length + 1) := by
      rw [literal, List.length_cons, List.length_append, List.length_singleton, Nat.add_comm]
    have skipped : scanner.skip (literal text).length = after := by
      simp only [Scanner.skip, scanner, after, List.take_left, List.drop_left]
    rw [← skipped, wide]
    exact Scanner.next_of_scanned rfl front (.quoted rfl (body.scans rest))
  · intro behind malformed scanner
    obtain ⟨width, read⟩ : ∃ width, scan (text ++ Ascii.backslash :: 'u'.toUInt8 :: behind) =
        ⟨.error .malformedCodePointEscape, width⟩ := by
      rw [← body.faulty malformed.scan_eq]
      exact ⟨_, rfl⟩
    have faulty : lexeme Ascii.quote (text ++ Ascii.backslash :: 'u'.toUInt8 :: behind) =
        ⟨.error .malformedCodePointEscape, 1 + width⟩ := by
      rw [lexeme_quoted, read]
      rfl
    have noGap : Gap.width scanner.rest = some 0 := Gap.width_other rfl (by decide) _
    exact ⟨.malformedCodePointEscape, _, rfl, Scanner.next_of_faulty rfl rfl noGap faulty⟩

/-- Capital digits, leading zeros, a byte that is no UTF-8 and a scalar value of four bytes, and
behind them a surrogate. -/
theorem next_of_parts_of_mixture :
    let text := ascii "a\\u\x7b00E9\x7d\\xfF\\u\x7b1f600\x7d"
    let read : Bytes := [0x61, 0xC3, 0xA9, 0xFF, 0xF0, 0x9F, 0x98, 0x80]
    let scanner : Scanner := { file := 7, rest := literal text ++ ascii "," }
    let malformed : Scanner :=
      { file := 7, rest := Ascii.quote :: (text ++ ascii "\\u\x7bD800\x7d\"") }
    BodyText text read ∧
      scanner.next = (.token ⟨.string read, ⟨7, 1, 1⟩⟩,
        { file := 7, position := ⟨1, 25⟩, rest := ascii "," }) ∧
      ∃ fault last, fault.message = ascii "malformed \\u escape" ∧
        malformed.next = (.ending ⟨some fault, ⟨7, 1, 1⟩⟩, last) := by
  intro text read scanner malformed
  have accent : PartText (ascii "\\u\x7b00E9\x7d") [0xC3, 0xA9] :=
    @PartText.scalar (.ofNat 0xE9) (ascii "00E9") _ [0, 0, 14, 9] (.of_values rfl)
      (List.cons_ne_nil _ _) (by decide) rfl (utf8Text_iff.mpr rfl)
  have byte : PartText (ascii "\\xfF") [0xFF] :=
    @PartText.byte _ _ 15 15 (showsDigit_iff.mpr rfl) (showsDigit_iff.mpr rfl)
  have smile : PartText (ascii "\\u\x7b1f600\x7d") [0xF0, 0x9F, 0x98, 0x80] :=
    @PartText.scalar (.ofNat 0x1F600) (ascii "1f600") _ [1, 15, 6, 0, 0] (.of_values rfl)
      (List.cons_ne_nil _ _) (by decide) rfl (utf8Text_iff.mpr rfl)
  have body : BodyText text read :=
    .cons (.plain (by decide) (by decide)) (.cons accent (.cons byte (.cons smile .nil)))
  have surrogate : MalformedCodePoint (ascii "\x7bD800\x7d\"") :=
    @MalformedCodePoint.noScalar (ascii "D800") _ [13, 8, 0, 0] _ (.of_values rfl) rfl
      (.inl (by decide))
  exact ⟨body, (next_of_parts 7 {} body (ascii ",")).1, (next_of_parts 7 {} body []).2 _ surrogate⟩

end Body

end OpcodeCatalog.Source.Quoted

import OpcodeCatalog.Proofs.Gaps
import OpcodeCatalog.Proofs.Numerals

/-!
# Texts that show lexemes

A text shows lexemes if these are read in front of whatever follows it.  Marks,
blanks and strings show the same before any text, words and numbers before a
text that delimits them; texts put together show their lexemes in order.
-/

namespace OpcodeCatalog.Source

/-- In front of every tail of which `ahead` holds, the text shows the lexemes. -/
def Shows (text : Bytes) (shown : List Lexeme) (ahead : Bytes → Prop := fun _ => True) : Prop :=
  ∀ tail, ahead tail → (lexed (text ++ tail)).lexemes = shown ++ (lexed tail).lexemes ∧
    (lexed (text ++ tail)).fault = (lexed tail).fault

namespace Shows

variable {text later : Bytes} {shown shownLater : List Lexeme} {ahead ahead' : Bytes → Prop}

theorem nil : Shows [] [] := by
  intro tail _
  exact ⟨rfl, rfl⟩

theorem before (shows' : Shows text shown) : Shows text shown ahead := by
  intro tail _
  exact shows' tail trivial

theorem append (first : Shows text shown ahead) (second : Shows later shownLater ahead')
    (follows : ∀ tail, ahead' tail → ahead (later ++ tail)) :
    Shows (text ++ later) (shown ++ shownLater) ahead' := by
  intro tail allowed
  obtain ⟨lexemes, fault⟩ := first (later ++ tail) (follows tail allowed)
  obtain ⟨lexemesLater, faultLater⟩ := second tail allowed
  rw [List.append_assoc, lexemes, fault, lexemesLater, faultLater]
  exact ⟨(List.append_assoc _ _ _).symm, rfl⟩

/-- Behind a text that nothing can continue, the rest is shown as it is. -/
theorem then' (first : Shows text shown) (second : Shows later shownLater ahead) :
    Shows (text ++ later) (shown ++ shownLater) ahead :=
  first.append second fun _ _ => trivial

/-- A word or a number is ended by the text behind it. -/
theorem endedBy (first : Shows text shown Delimited) {byte : UInt8}
    (second : Shows (byte :: later) shownLater) (delimiter : delimits byte = true) :
    Shows (text ++ byte :: later) (shown ++ shownLater) := by
  apply first.append second
  intro tail _ next front
  cases front
  exact delimiter

theorem lexed_eq (first : Shows text shown ahead) (allowed : ahead []) :
    (lexed text).lexemes = shown ∧ (lexed text).fault = none := by
  obtain ⟨lexemes, fault⟩ := first [] allowed
  rw [List.append_nil] at lexemes fault
  rw [lexemes, fault, lexed_of_finished front_nil]
  exact ⟨List.append_nil shown, rfl⟩

end Shows

theorem shows_blank {byte : UInt8} (blank : Ascii.isBlank byte = true) : Shows [byte] [] := by
  intro tail _
  exact lexemes_of_front_after rfl (front_blank blank tail)

theorem shows_blanks {text : Bytes} (blank : ∀ byte ∈ text, Ascii.isBlank byte = true) :
    Shows text [] := by
  induction text with
  | nil => exact .nil
  | cons byte text induction =>
      apply (shows_blank (blank byte List.mem_cons_self)).then'
      apply induction
      intro later member
      exact blank later (List.mem_cons_of_mem byte member)

/-- The bytes that may open a gap. -/
def gapOpeners : List UInt8 :=
  [' '.toUInt8, '\t'.toUInt8, '\r'.toUInt8, Ascii.newline, Ascii.slash]

/-- A class of bytes of which none opens a gap has only bytes that open none. -/
theorem Ascii.not_gap_of_class {class' : UInt8 → Bool} {byte : UInt8}
    (excluded : (gapOpeners.all fun opener => !class' opener) = true)
    (member : class' byte = true) : Ascii.isBlank byte = false ∧ byte ≠ Ascii.slash := by
  have other : byte ∉ gapOpeners := by
    intro opener
    have outside := List.all_eq_true.mp excluded byte opener
    rw [member] at outside
    cases outside
  simp only [gapOpeners, List.mem_cons, List.not_mem_nil, or_false, not_or] at other
  obtain ⟨space, tab, carriage, newline, slash⟩ := other
  exact ⟨by simp [Ascii.isBlank, space, tab, carriage, newline], slash⟩

theorem Number.not_gap_of_opens {first : UInt8} {rest : Bytes}
    (opens : Number.opens (first :: rest) = true) :
    Ascii.isBlank first = false ∧ first ≠ Ascii.slash := by
  rcases Number.opens_iff.mp opens with digit | ⟨signed, _⟩
  · exact Ascii.not_gap_of_class rfl digit
  · exact Ascii.not_gap_of_class rfl signed

/-- No lexeme opens with a byte that belongs to a gap. -/
theorem Scanned.not_gap {first : UInt8} {text : Bytes} {found : Lexeme} {width : Nat}
    (scanned : Scanned first text found width) :
    Ascii.isBlank first = false ∧ first ≠ Ascii.slash := by
  cases scanned with
  | @mark mark same =>
      subst same
      cases mark <;> decide
  | quoted quote _ =>
      subst quote
      decide
  | raw opens _ =>
      obtain ⟨rfl, _⟩ := RawString.opens_iff.mp opens
      decide
  | word opens _ => exact Ascii.not_gap_of_class rfl opens
  | number opens _ => exact Number.not_gap_of_opens opens

theorem Scanned.front_eq {first : UInt8} {text : Bytes} {found : Lexeme} {width : Nat}
    (scanned : Scanned first text found width) :
    front (first :: text) = .lexeme found 0 width := by
  obtain ⟨notBlank, notSlash⟩ := scanned.not_gap
  rw [front_ofSpan (Gap.width_other notBlank notSlash _), lexeme_eq_ok_iff.mpr scanned]
  rfl

/-- A slash that begins no comment is a fault. -/
theorem not_faultless_slash {rest : Bytes} (noGap : Gap.width (Ascii.slash :: rest) = some 0) :
    ¬ (front (Ascii.slash :: rest)).Faultless := by
  intro faultless
  rw [front_ofSpan noGap] at faultless
  cases read : lexeme Ascii.slash rest with
  | mk value width =>
      rw [read] at faultless
      cases value with
      | ok found => exact (lexeme_eq_ok_iff.mp read).not_gap.2 rfl
      | error reason => exact faultless reason rfl

theorem shows_scanned {first : UInt8} {text : Bytes} {found : Lexeme} {ahead : Bytes → Prop}
    (scanned : ∀ tail, ahead tail → Scanned first (text ++ tail) found (1 + text.length)) :
    Shows (first :: text) [found] ahead := by
  intro tail allowed
  have atFront := (scanned tail allowed).front_eq
  have behind : (first :: (text ++ tail)).drop (0 + (1 + text.length)) = tail := by
    rw [Nat.zero_add, Nat.add_comm, List.drop_succ_cons, List.drop_left]
  rw [List.cons_append, lexed_of_lexeme atFront, behind]
  exact ⟨Lexed.lexemes_behind _ _ _ _, rfl⟩

theorem shows_mark (mark : Mark) : Shows [mark.byte] [.mark mark] := by
  apply shows_scanned
  intro tail _
  exact .mark rfl

/-- Whether a text is a word as a whole. -/
def isWord (text : Bytes) : Bool :=
  match text with
  | [] => false
  | first :: rest => Ascii.opensWord first && rest.all Ascii.continuesWord

theorem shows_word {word : Bytes} (whole : isWord word = true) :
    Shows word [.identifier word] Delimited := by
  cases word with
  | nil => cases whole
  | cons first rest =>
      obtain ⟨opens, allContinue⟩ := Bool.and_eq_true_iff.mp whole
      have continues := List.all_eq_true.mp allContinue
      have taken := List.takeWhile_eq_self_iff.mpr continues
      have notRaw : RawString.opens (first :: rest) = false := by
        apply Bool.eq_false_iff.mpr
        intro raw
        rcases (RawString.opens_iff.mp raw).2 with quote | hash
        · cases continues Ascii.quote (List.mem_of_head? quote)
        · cases continues Ascii.hash (List.mem_of_head? hash)
      apply shows_scanned
      intro tail delimited
      have scanned := Scanned.split_word opens notRaw (.inr delimited)
      rwa [taken] at scanned

theorem shows_literal {negative : Bool} {radix : Radix} {digits : List Nat} {first : UInt8}
    {text : Bytes} (shown : Number.LiteralText negative radix digits (first :: text))
    (opens : Number.opens (first :: text) = true) (nonempty : digits ≠ [])
    (inRange : Number.InRange (Number.literalValue negative radix digits)) :
    Shows (first :: text) [.integer (Number.literalValue negative radix digits)] Delimited := by
  apply shows_scanned
  intro tail delimited
  exact Number.scanned_of_literal shown opens nonempty inRange delimited

theorem shows_decimalInt {number : Int} (inRange : Number.InRange number) :
    Shows (decimalInt number) [.integer number] Delimited := by
  have shown := Number.literalText_decimalInt number
  have same : Number.literalValue (decide (number < 0)) .decimal
      (Radix.decimal.digits number.natAbs) = number := by
    unfold Number.literalValue
    rw [Radix.value_digits]
    split
    · next negative =>
        have below := of_decide_eq_true negative
        omega
    · next nonnegative =>
        have above := of_decide_eq_false (Bool.eq_false_iff.mpr nonnegative)
        omega
  obtain ⟨first, rest, written, opens⟩ := Number.exists_decimalInt_eq_cons number
  rw [← same] at inRange
  rw [written] at shown ⊢
  have shows' := shows_literal shown opens (Radix.digits_ne_nil _ _) inRange
  rwa [same] at shows'

theorem shows_decimal {number : Nat} (inRange : Number.InRange number) :
    Shows (decimal number) [.integer number] Delimited := by
  have same : decimalInt number = decimal number := by
    unfold decimalInt
    rw [if_neg (Int.not_lt.mpr (Int.natCast_nonneg number)), Int.natAbs_natCast]
  rw [← same]
  exact shows_decimalInt inRange

theorem shows_hexadecimal {number : Nat} (inRange : Number.InRange number) :
    Shows (hexadecimal number) [.integer number] Delimited := by
  have shown := Number.literalText_hexadecimal number
  have same : Number.literalValue false .hexadecimal (Radix.hexadecimal.digits number) =
      number := by
    unfold Number.literalValue
    rw [Radix.value_digits]
    rfl
  rw [← same] at inRange ⊢
  exact shows_literal shown rfl (Radix.digits_ne_nil _ _) inRange

namespace Quoted

theorem scan_letter (letter : UInt8) {byte : UInt8} (known : escapedByLetter? letter = some byte)
    (plain : letter ≠ 'x'.toUInt8 ∧ letter ≠ 'u'.toUInt8) (rest : Bytes) :
    scan (Ascii.backslash :: letter :: rest) =
      ((scan rest).map (·.map (byte :: ·))).after 2 := by
  have read : Scans escape (letter :: rest) [byte] 1 := by
    simp only [Scans, escape, if_neg plain.1, if_neg plain.2, known]
  exact scan_escape read

theorem scan_byteEscape {highByte lowByte : UInt8} {high low : Nat}
    (highValue : hexDigitValue highByte = some high) (lowValue : hexDigitValue lowByte = some low)
    (rest : Bytes) :
    scan (Ascii.backslash :: 'x'.toUInt8 :: highByte :: lowByte :: rest) =
      ((scan rest).map (·.map ((16 * high + low).toUInt8 :: ·))).after 4 := by
  have read : Scans escape ('x'.toUInt8 :: highByte :: lowByte :: rest)
      [(16 * high + low).toUInt8] 3 := by
    simp only [Scans, escape, if_true, byteEscape, highValue, lowValue]
    rfl
  exact scan_escape read

theorem scan_twoDigits (byte : UInt8) (rest : Bytes) :
    scan (Ascii.backslash :: 'x'.toUInt8 :: digitByte .lower (byte.toNat / 16) ::
        digitByte .lower (byte.toNat % 16) :: rest) =
      ((scan rest).map (·.map (byte :: ·))).after 4 := by
  have bound := byte.toNat_lt
  have high : byte.toNat / 16 < 16 := by omega
  have low : byte.toNat % 16 < 16 := by omega
  have whole : (16 * (byte.toNat / 16) + byte.toNat % 16).toUInt8 = byte := by
    rw [Nat.div_add_mod]
    exact UInt8.ofNat_toNat
  rw [scan_byteEscape (hexDigitValue_digitByte high) (hexDigitValue_digitByte low), whole]

/-- A written byte is read back as that byte. -/
theorem scan_writeByte (byte : UInt8) (rest : Bytes) :
    scan (writeByte byte ++ rest) =
      ((scan rest).map (·.map (byte :: ·))).after (writeByte byte).length := by
  unfold writeByte
  split
  · next same =>
      subst same
      exact scan_letter Ascii.backslash rfl (by decide) rest
  split
  · next same =>
      subst same
      exact scan_letter Ascii.quote rfl (by decide) rest
  split
  · next same =>
      subst same
      exact scan_letter 'n'.toUInt8 rfl (by decide) rest
  split
  · next same =>
      subst same
      exact scan_letter 'r'.toUInt8 rfl (by decide) rest
  split
  · next same =>
      subst same
      exact scan_letter 't'.toUInt8 rfl (by decide) rest
  split
  · next same =>
      subst same
      exact scan_letter '0'.toUInt8 rfl (by decide) rest
  split
  · exact scan_twoDigits byte rest
  · next notBackslash notQuote _ _ _ _ _ => exact scan_plain notQuote notBackslash rest

theorem scan_write (text tail : Bytes) :
    scan (text.flatMap writeByte ++ [Ascii.quote] ++ tail) =
      ⟨.ok text, (text.flatMap writeByte ++ [Ascii.quote]).length⟩ := by
  induction text with
  | nil => exact scan_closing tail
  | cons byte text induction =>
      rw [List.flatMap_cons, List.append_assoc, List.append_assoc, scan_writeByte,
        ← List.append_assoc, induction]
      apply Span.after_map_eq_ok_iff.mpr
      refine ⟨_, _, rfl, rfl, ?_⟩
      simp only [List.length_append]
      omega

end Quoted

theorem shows_quoted (text : Bytes) : Shows (Quoted.write text) [.string text] := by
  apply shows_scanned
  intro tail _
  exact .quoted rfl (Quoted.scan_write text tail)

end OpcodeCatalog.Source

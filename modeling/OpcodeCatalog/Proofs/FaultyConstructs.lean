import OpcodeCatalog.Proofs.GapTexts

/-!
# Faulty constructs

A text shows a fault exactly where, behind a gap, something begins that is no lexeme:
a comment that is never closed, a number or a string with a flaw in it, or a byte
that begins nothing.  How it begins, and what the fault can be, is told for each of
them without a scanner.
-/

namespace OpcodeCatalog.Source

/-! ## What can be wrong with a literal -/

/-- What can be wrong with a number. -/
inductive Number.Flaw : LexicalFault → Prop where
  | noDigits : Flaw .noDigits
  | fraction : Flaw .fraction
  | invalidDigit {byte : UInt8} : Ascii.continuesWord byte = true → Flaw (.invalidDigit byte)
  | outOfRange : Flaw .integerOutOfRange

/-- What can be wrong with a string in quotes. -/
inductive Quoted.Flaw : LexicalFault → Prop where
  | byteEscape : Flaw .malformedByteEscape
  | codePointEscape : Flaw .malformedCodePointEscape
  | unknownEscape {byte : UInt8} : Flaw (.unknownEscape byte)
  | unterminated : Flaw .unterminatedString

/-- What can be wrong with a raw string. -/
inductive RawString.Flaw : LexicalFault → Prop where
  | malformed : Flaw .malformedRawString
  | unterminated : Flaw .unterminatedRawString

/-- Reading a text ends in a fault. -/
def Fails (scan : Bytes → Span (Except LexicalFault α)) (text : Bytes) (fault : LexicalFault) :
    Prop :=
  (scan text).value = .error fault

theorem Span.map_eq_error_iff {span : Span (Except LexicalFault α)} {change : α → β}
    {fault : LexicalFault} :
    (span.map (·.map change)).value = .error fault ↔ span.value = .error fault := by
  cases span with
  | mk value width => cases value <;> simp [Span.map, Except.map]

theorem Number.flaw_of_judge {negative : Bool} {radix : Radix} {digits : List Nat}
    {next : Option UInt8} {fault : LexicalFault}
    (judged : judge negative radix digits next = .error fault) : Flaw fault := by
  unfold judge at judged
  simp only at judged
  split at judged
  · cases judged
    exact .noDigits
  · split at judged
    · cases judged
      exact .fraction
    · split at judged
      · next byte continued =>
          cases judged
          exact .invalidDigit (Option.filter_eq_some_iff.mp continued).2
      · split_ifs at judged
        all_goals cases judged
        all_goals exact .outOfRange

theorem Number.flaw_of_fails {text : Bytes} {fault : LexicalFault} (fails : Fails scan text fault) :
    Flaw fault :=
  flaw_of_judge fails

namespace Quoted

theorem fails_byteEscape {text : Bytes} {fault : LexicalFault}
    (fails : Fails byteEscape text fault) : fault = .malformedByteEscape := by
  unfold Fails byteEscape at fails
  split at fails
  · split at fails <;> cases fails
    rfl
  · cases fails
    rfl

theorem fails_codePointEscape {text : Bytes} {fault : LexicalFault}
    (fails : Fails codePointEscape text fault) : fault = .malformedCodePointEscape := by
  unfold Fails codePointEscape at fails
  split at fails
  · cases fails
    rfl
  · split at fails
    · simp only at fails
      split at fails <;> cases fails
      rfl
    · cases fails
      rfl

theorem flaw_of_fails_escape {text : Bytes} {fault : LexicalFault}
    (fails : Fails escape text fault) : Flaw fault := by
  unfold Fails escape at fails
  split at fails
  · cases fails
    exact .unknownEscape
  · split at fails
    · rw [fails_byteEscape fails]
      exact .byteEscape
    · split at fails
      · rw [fails_codePointEscape fails]
        exact .codePointEscape
      · split at fails
        · cases fails
        · cases fails
          exact .unknownEscape

/-- The induction is on the pieces of the string, of which the first flawed one ends it. -/
theorem flaw_of_fails {text : Bytes} {fault : LexicalFault} (fails : Fails scan text fault) :
    Flaw fault := by
  unfold Fails at fails
  fun_induction scan text with
  | case1 =>
      cases fails
      exact .unterminated
  | case2 => cases fails
  | case3 rest read reason failed _ =>
      cases fails
      exact flaw_of_fails_escape failed
  | case4 rest _ read escaped _ induction => exact induction (Span.map_eq_error_iff.mp fails)
  | case5 byte rest _ _ induction => exact induction (Span.map_eq_error_iff.mp fails)

end Quoted

namespace RawString

theorem unterminated_of_fails_body {hashes : Nat} {text : Bytes} {fault : LexicalFault}
    (fails : Fails (body hashes) text fault) : fault = .unterminatedRawString := by
  unfold Fails at fails
  fun_induction body hashes text with
  | case1 =>
      cases fails
      rfl
  | case2 => cases fails
  | case3 byte rest _ induction => exact induction (Span.map_eq_error_iff.mp fails)

theorem flaw_of_fails {text : Bytes} {fault : LexicalFault} (fails : Fails scan text fault) :
    Flaw fault := by
  unfold Fails scan at fails
  simp only at fails
  split at fails
  · cases fails
    exact .malformed
  · split at fails
    · rw [unterminated_of_fails_body fails]
      exact .unterminated
    · cases fails
      exact .malformed

end RawString

/-! ## What begins nothing -/

/-- A byte that begins no lexeme and no gap. -/
structure Stray (byte : UInt8) (rest : Bytes) : Prop where
  notBlank : Ascii.isBlank byte = false
  noComment : byte = Ascii.slash → ∀ second, rest.head? = some second →
    second ≠ Ascii.slash ∧ second ≠ Ascii.star
  noMark : ∀ mark : Mark, byte ≠ mark.byte
  notQuote : byte ≠ Ascii.quote
  noWord : Ascii.opensWord byte = false
  noNumber : Number.opens (byte :: rest) = false

/-- What is no lexeme though nothing stands in front of it, up to the end of the source. -/
inductive Malformed : LexicalFault → Bytes → Prop where
  | comment {inside : Bytes} :
      (∀ text rest, Gap.CommentText 1 text → inside ≠ text ++ rest) →
      Malformed .unterminatedComment (Ascii.slash :: Ascii.star :: inside)
  | number {fault : LexicalFault} {first : UInt8} {rest : Bytes} :
      Number.opens (first :: rest) = true →
      Fails Number.scan (first :: rest) fault →
      Malformed fault (first :: rest)
  | quoted {fault : LexicalFault} {rest : Bytes} :
      Fails Quoted.scan rest fault →
      Malformed fault (Ascii.quote :: rest)
  | raw {fault : LexicalFault} {first : UInt8} {rest : Bytes} :
      RawString.opens (first :: rest) = true →
      Fails RawString.scan rest fault →
      Malformed fault (first :: rest)
  | stray {byte : UInt8} {rest : Bytes} :
      Stray byte rest → Malformed (.unexpectedByte byte) (byte :: rest)

namespace Gap

/-- No gap is left behind a gap that is passed over. -/
theorem width_drop {text : Bytes} {gap : Nat} (skipped : width text = some gap) :
    width (text.drop gap) = some 0 := by
  have opening := opening text
  induction opening generalizing gap with
  | nothing =>
      rw [List.drop_nil, width]
  | blank blank _ induction =>
      rw [width_blank blank] at skipped
      obtain ⟨later, readLater, rfl⟩ := Option.map_eq_some_iff.mp skipped
      rw [Nat.add_comm, List.drop_succ_cons]
      exact induction readLater
  | line _ induction =>
      rw [width_line] at skipped
      obtain ⟨later, readLater, rfl⟩ := Option.map_eq_some_iff.mp skipped
      rw [← List.drop_drop, ← List.drop_drop]
      exact induction readLater
  | block closed _ induction =>
      rw [width_block closed] at skipped
      obtain ⟨later, readLater, rfl⟩ := Option.map_eq_some_iff.mp skipped
      rw [← List.drop_drop, ← List.drop_drop]
      exact induction readLater
  | unterminated unclosed =>
      rw [width_unterminated unclosed] at skipped
      cases skipped
  | slash noGap =>
      rw [noGap] at skipped
      cases skipped
      exact noGap
  | other notBlank notSlash =>
      have noGap := skipped
      rw [width_other notBlank notSlash] at skipped
      cases skipped
      exact noGap

theorem blockComment_eq_none_iff {inside : Bytes} :
    blockComment 1 inside = none ↔ ∀ text rest, CommentText 1 text → inside ≠ text ++ rest := by
  constructor
  · rintro unclosed text rest comment rfl
    rw [blockComment_of_text comment] at unclosed
    cases unclosed
  · intro unclosed
    cases read : blockComment 1 inside with
    | none => rfl
    | some width =>
        obtain ⟨_, comment⟩ := commentText_of_blockComment read
        exact (unclosed _ _ comment (List.take_append_drop width inside).symm).elim

/-- Only a comment that is never closed keeps a gap from ending. -/
theorem exists_unclosed_of_width {text : Bytes} (endless : width text = none) :
    ∃ gap inside, text = gap ++ Ascii.slash :: Ascii.star :: inside ∧ GapText gap ∧
      blockComment 1 inside = none := by
  have opening := opening text
  induction opening with
  | nothing =>
      rw [width] at endless
      cases endless
  | blank blank _ induction =>
      rw [width_blank blank, Option.map_eq_none_iff] at endless
      obtain ⟨gap, inside, rfl, text, unclosed⟩ := induction endless
      exact ⟨_ :: gap, inside, rfl, .blank blank text, unclosed⟩
  | @line comment _ induction =>
      rw [width_line, Option.map_eq_none_iff] at endless
      obtain ⟨gap, inside, split, text, unclosed⟩ := induction endless
      obtain ⟨inLine, ends⟩ := split_restOfLine comment
      have whole := List.take_append_drop (restOfLine comment) comment
      -- The gap behind the comment has the newline that ends it.
      rcases ends with empty | ⟨rest, behind⟩
      · rw [empty, width] at endless
        cases endless
      · rw [behind] at split whole
        cases gap with
        | nil => cases split
        | cons newline gap =>
            rw [List.cons_append] at split
            obtain ⟨rfl, rfl⟩ := List.cons.inj split
            refine ⟨_, inside, ?_, .line inLine text, unclosed⟩
            rw [List.cons_append, List.cons_append, List.append_assoc, List.cons_append, whole]
  | @block comment width closed _ induction =>
      rw [width_block closed, Option.map_eq_none_iff] at endless
      obtain ⟨gap, inside, split, text, unclosed⟩ := induction endless
      obtain ⟨_, commentText⟩ := commentText_of_blockComment closed
      refine ⟨_, inside, ?_, .block commentText text, unclosed⟩
      simp [← split]
  | @unterminated inside unclosed => exact ⟨[], inside, rfl, .nil, unclosed⟩
  | slash noGap =>
      rw [noGap] at endless
      cases endless
  | other notBlank notSlash =>
      rw [width_other notBlank notSlash] at endless
      cases endless

end Gap

/-! ## Faults at the front -/

variable {first : UInt8} {rest text : Bytes} {fault : LexicalFault}

/-- A slash behind a gap begins no comment. -/
theorem not_comment_of_noGap (noGap : Gap.width (first :: rest) = some 0) :
    Ascii.isBlank first = false ∧ (first = Ascii.slash → ∀ second, rest.head? = some second →
      second ≠ Ascii.slash ∧ second ≠ Ascii.star) := by
  constructor
  · apply Bool.eq_false_iff.mpr
    intro blank
    rw [Gap.width_blank blank] at noGap
    obtain ⟨later, _, added⟩ := Option.map_eq_some_iff.mp noGap
    omega
  · rintro rfl second front
    obtain ⟨inside, rfl⟩ := List.head?_eq_some_iff.mp front
    constructor
    · rintro rfl
      rw [Gap.width_line] at noGap
      obtain ⟨later, _, added⟩ := Option.map_eq_some_iff.mp noGap
      omega
    · rintro rfl
      cases closed : Gap.blockComment 1 inside with
      | none =>
          rw [Gap.width_unterminated closed] at noGap
          cases noGap
      | some comment =>
          rw [Gap.width_block closed] at noGap
          obtain ⟨later, _, added⟩ := Option.map_eq_some_iff.mp noGap
          omega

theorem Stray.noGap (stray : Stray first rest) : Gap.width (first :: rest) = some 0 := by
  by_cases slash : first = Ascii.slash
  · cases rest with
    | nil =>
        rw [slash]
        exact Gap.width_slash
    | cons second inside =>
        obtain ⟨notSlash, notStar⟩ := stray.noComment slash second rfl
        rw [slash]
        exact Gap.width_loneSlash notSlash notStar inside
  · exact Gap.width_other stray.notBlank slash rest

/-- What is read as no lexeme is malformed. -/
theorem malformed_of_lexeme (noGap : Gap.width (first :: rest) = some 0)
    (failed : (lexeme first rest).value = .error fault) : Malformed fault (first :: rest) := by
  obtain ⟨notBlank, noComment⟩ := not_comment_of_noGap noGap
  unfold lexeme at failed
  split at failed
  · cases failed
  · next unmarked =>
      split at failed
      · next quote =>
          rw [quote]
          exact .quoted (Span.map_eq_error_iff.mp failed)
      · next notQuote =>
          split at failed
          · next opens => exact .raw opens (Span.map_eq_error_iff.mp failed)
          · split at failed
            · cases failed
            · next noWord =>
                split at failed
                · next opens => exact .number opens (Span.map_eq_error_iff.mp failed)
                · next noNumber =>
                    cases failed
                    apply Malformed.stray
                    refine ⟨notBlank, noComment, ?_, notQuote, ?_, ?_⟩
                    · intro mark same
                      rw [Mark.ofByte?_eq_some_iff.mpr same] at unmarked
                      cases unmarked
                    · exact Bool.eq_false_iff.mpr noWord
                    · exact Bool.eq_false_iff.mpr noNumber

theorem lexeme_stray (stray : Stray first rest) :
    lexeme first rest = ⟨.error (.unexpectedByte first), 1⟩ := by
  have notRaw : RawString.opens (first :: rest) = false := by
    apply Bool.eq_false_iff.mpr
    intro opens
    have noWord := stray.noWord
    rw [(RawString.opens_iff.mp opens).1] at noWord
    cases noWord
  simp [lexeme, Mark.ofByte?_eq_none stray.noMark, stray.notQuote, notRaw, stray.noWord,
    stray.noNumber]

theorem front_of_lexeme (noGap : Gap.width (first :: rest) = some 0)
    (failed : (lexeme first rest).value = .error fault) :
    front (first :: rest) = .fault fault := by
  rw [front_ofSpan noGap, Front.ofSpan, failed]

theorem Malformed.front_eq (malformed : Malformed fault text) : front text = .fault fault := by
  cases malformed with
  | comment unclosed => exact front_unterminated (Gap.blockComment_eq_none_iff.mpr unclosed)
  | number opens fails =>
      obtain ⟨notBlank, notSlash⟩ := Number.not_gap_of_opens opens
      apply front_of_lexeme (Gap.width_other notBlank notSlash _)
      rw [lexeme_number opens]
      exact Span.map_eq_error_iff.mpr fails
  | quoted fails =>
      apply front_of_lexeme (Gap.width_other rfl (by decide) _)
      rw [lexeme_quoted]
      exact Span.map_eq_error_iff.mpr fails
  | raw opens fails =>
      have letter := (RawString.opens_iff.mp opens).1
      apply front_of_lexeme (Gap.width_other (by rw [letter]; rfl) (by rw [letter]; decide) _)
      rw [lexeme_raw opens]
      exact Span.map_eq_error_iff.mpr fails
  | stray stray =>
      apply front_of_lexeme stray.noGap
      rw [lexeme_stray stray]

/-- A text shows a fault exactly where something malformed stands behind a gap. -/
theorem front_eq_fault_iff :
    front text = .fault fault ↔
      ∃ gap construct, text = gap ++ construct ∧ GapText gap ∧ Malformed fault construct := by
  constructor
  · intro read
    unfold front at read
    cases skipped : Gap.width text with
    | none =>
        rw [skipped] at read
        cases read
        obtain ⟨gap, inside, rfl, gapText, unclosed⟩ := Gap.exists_unclosed_of_width skipped
        exact ⟨gap, _, rfl, gapText, .comment (Gap.blockComment_eq_none_iff.mp unclosed)⟩
    | some gap =>
        simp only [skipped] at read
        cases behind : text.drop gap with
        | nil =>
            rw [behind] at read
            cases read
        | cons first rest =>
            have noGap := Gap.width_drop skipped
            simp only [behind] at read noGap
            split at read
            · cases read
            · next failed =>
                cases read
                refine ⟨text.take gap, first :: rest, ?_, gapText_take skipped behind,
                  malformed_of_lexeme noGap failed⟩
                rw [← behind, List.take_append_drop]
  · rintro ⟨gap, construct, rfl, gapText, malformed⟩
    rw [front_gapText gapText, malformed.front_eq]
    rfl

end OpcodeCatalog.Source

import OpcodeCatalog.Proofs.Breaches
import OpcodeCatalog.Proofs.JoinedSources
import OpcodeCatalog.Proofs.RefusalPlaces

/-!
# Sources that break off at a breach

A mark is read as such whatever stands behind it, so a source that ends with one
can be continued without a change to any of its tokens.  A source that ends with
a breach is therefore refused for that breach however it goes on, unless it goes
on with a fault: that token is fetched before the breach is told.
-/

namespace OpcodeCatalog.Source

/-- A lexeme at the front stays there when the text is continued, if more text stands behind it
already or if it is a mark, which nothing continues. -/
theorem front_append {text : Bytes} {found : Lexeme} {gap width : Nat}
    (read : front text = .lexeme found gap width)
    (ends : text.drop (gap + width) ≠ [] ∨ ∃ mark, found = .mark mark) (tail : Bytes) :
    front (text ++ tail) = .lexeme found gap width := by
  obtain ⟨_, first, rest, behind, lexeme⟩ := front_eq_lexeme_iff.mp read
  obtain ⟨_, _, isGap, _⟩ := exists_text_of_front read
  have scanned := lexeme_eq_ok_iff.mp lexeme
  have bound : gap ≤ text.length :=
    Nat.le_trans (Nat.le_add_right gap width) (le_length_of_front read)
  have continued : Scanned first (rest ++ tail) found width := by
    rcases ends with more | ⟨mark, rfl⟩
    · obtain ⟨used, later, rfl, rfl, again⟩ := scanned.split
      have later_eq : text.drop (gap + (1 + used.length)) = later := by
        rw [← List.drop_drop, behind, Nat.add_comm, List.drop_succ_cons, List.drop_left]
      rw [later_eq] at more
      rw [List.append_assoc]
      apply again
      exact .inl (List.head?_append_of_ne_nil _ more)
    · cases scanned with
      | mark same => exact .mark same
  have split : text ++ tail = text.take gap ++ (first :: (rest ++ tail)) := by
    rw [← List.cons_append, ← behind, ← List.append_assoc, List.take_append_drop]
  rw [split, front_gapText isGap, continued.front_eq, List.length_take_of_le bound]
  rfl

namespace Scanner

/-- The scanner where its source goes on. -/
def continued (scanner : Scanner) (tail : Bytes) : Scanner :=
  { scanner with rest := scanner.rest ++ tail }

variable {scanner last : Scanner} {tokens : List Token}

theorem skip_continued {width : Nat} (bound : width ≤ scanner.rest.length) (tail : Bytes) :
    (scanner.continued tail).skip width = (scanner.skip width).continued tail := by
  simp only [skip, continued, List.take_append_of_le_length bound,
    List.drop_append_of_le_length bound]

theorem next_continued {found : Lexeme} {gap width : Nat} (sound : scanner.failed = false)
    (read : front scanner.rest = .lexeme found gap width)
    (ends : scanner.rest.drop (gap + width) ≠ [] ∨ ∃ mark, found = .mark mark) (tail : Bytes) :
    (scanner.continued tail).next =
      (.token ⟨found, (scanner.skip gap).location⟩,
        (scanner.skip (gap + width)).continued tail) := by
  have bound := le_length_of_front read
  have again : front (scanner.continued tail).rest = .lexeme found gap width :=
    front_append read ends tail
  have start : ((scanner.continued tail).skip gap).location = (scanner.skip gap).location := by
    rw [skip_continued (Nat.le_trans (Nat.le_add_right gap width) bound)]
    rfl
  have soundAgain : (scanner.continued tail).failed = false := sound
  rw [next_of_lexeme soundAgain again, start, skip_continued bound]

theorem rest_ne_nil_of_next {token : Token} {after : Scanner} (sound : scanner.failed = false)
    (read : scanner.next = (.token token, after)) : scanner.rest ≠ [] := by
  intro empty
  obtain ⟨_, _, _, found, _⟩ := exists_lexeme_of_next sound read
  rw [empty, front_nil] at found
  cases found

/-- Tokens that end with a mark are handed out again where the source goes on. -/
theorem HandsOut.continued (handed : scanner.HandsOut tokens last) (sound : scanner.failed = false)
    {mark : Mark} (ends : (tokens.map Token.lexeme).getLast? = some (.mark mark)) (tail : Bytes) :
    (scanner.continued tail).HandsOut tokens (last.continued tail) := by
  induction handed with
  | nil => cases ends
  | @cons scanner middle last token tokens read later induction =>
      obtain ⟨_, gap, width, found, rfl, rfl⟩ := exists_lexeme_of_next sound read
      have soundLater : (scanner.skip (gap + width)).failed = false := sound
      cases later with
      | nil =>
          cases ends
          exact .cons (next_continued sound found (.inr ⟨mark, rfl⟩) tail) .nil
      | cons readLater later =>
          have more := rest_ne_nil_of_next soundLater readLater
          apply HandsOut.cons (next_continued sound found (.inl more) tail)
          apply induction soundLater
          rwa [List.map_cons, List.map_cons, List.getLast?_cons_cons] at ends

theorem HandsOut.run_eq (handed : scanner.HandsOut tokens last) :
    scanner.run.1 = last.run.1.behind tokens := by
  induction handed with
  | nil => rfl
  | cons read _ induction =>
      rw [run_of_token read, induction, ← TokenStream.behind_append, List.singleton_append]

/-- So many tokens at most, and the scanner behind them. -/
def handOut : Nat → Scanner → List Token × Scanner
  | 0, scanner => ([], scanner)
  | count + 1, scanner =>
    match scanner.next with
    | (.token token, after) =>
      let (tokens, last) := handOut count after
      (token :: tokens, last)
    | (.ending _, _) => ([], scanner)

theorem handsOut_handOut (count : Nat) (scanner : Scanner) :
    scanner.HandsOut (handOut count scanner).1 (handOut count scanner).2 := by
  induction count generalizing scanner with
  | zero => exact .nil
  | succ count induction =>
      rw [handOut]
      generalize read : scanner.next = next
      obtain ⟨reading, after⟩ := next
      cases reading with
      | token token => exact .cons read (induction after)
      | ending ending => exact .nil

theorem front_run (scanner : Scanner) : scanner.run.1.front = scanner.next.1 := by
  generalize read : scanner.next = next
  obtain ⟨reading, after⟩ := next
  cases reading with
  | token token =>
      rw [run_of_token read]
      rfl
  | ending ending =>
      rw [run_of_ending read]
      rfl

end Scanner

namespace Grammar

/-- What breaks a beginning ends with a mark. -/
theorem Breach.getLast? {front culprit : List Lexeme} {reason : Reason}
    (breach : Breach front culprit reason) : ∃ mark, culprit.getLast? = some (.mark mark) := by
  have ofEntry {entry : NamedValue} {shown : List Lexeme} (text : NamedValueText entry shown) :
      shown.getLast? = some (.mark .rightParen) := by
    cases text with
    | pair _ nameText =>
        rw [List.getLast?_append]
        cases nameText <;> rfl
  cases breach with
  | functionsAgain _ => exact ⟨.colon, rfl⟩
  | fieldAgain _ _ => exact ⟨.colon, rfl⟩
  | valueAgain _ text _ => exact ⟨.rightParen, ofEntry text⟩
  | nameAgain _ text _ _ => exact ⟨.rightParen, ofEntry text⟩
  | fieldMissing _ _ _ struct _ =>
      refine ⟨.rightParen, ?_⟩
      cases struct with
      | unnamed => rw [← List.cons_append, List.getLast?_concat]
      | named => rw [← List.cons_append, ← List.cons_append, List.getLast?_concat]

end Grammar

open Grammar

/-- A source that ends with a breach is refused for it, at the first token of what breaks its
beginning, however it goes on.  Only a fault right behind the breach is told in its place, since
the token there is fetched first. -/
theorem instructions_of_breach {file : UInt32} {before : Bytes} {last : Scanner}
    {front culprit : List Token} {reason : Reason}
    (handed : (Scanner.ofSource file before).HandsOut (front ++ culprit) last)
    (whole : last.rest = [])
    (breach : Breach (front.map Token.lexeme) (culprit.map Token.lexeme) reason) :
    ∃ first, culprit.head? = some first ∧ ∀ after,
      let next := (Scanner.next { last with rest := after }).1
      instructions file (before ++ after) = .error (next.overtaking ⟨reason, first.location⟩) := by
  obtain ⟨mark, ends⟩ := breach.getLast?
  cases culprit with
  | nil => cases ends
  | cons first later =>
      refine ⟨first, rfl, ?_⟩
      intro after next
      have endsAll : ((front ++ first :: later).map Token.lexeme).getLast? = some (.mark mark) := by
        rw [List.map_append, List.getLast?_append, ends]
        rfl
      have goesOn : last.continued after = { last with rest := after } := by
        rw [Scanner.continued, whole, List.nil_append]
      have stream : TokenStream.ofSource file (before ++ after) =
          ((last.continued after).run.1.behind (first :: later)).behind front := by
        rw [← TokenStream.behind_append]
        exact (handed.continued rfl endsAll after).run_eq
      have refused := breach.refused (last.continued after).run.1
      rw [← stream, Scanner.front_run, goesOn] at refused
      exact refused

/-- A function that lacks five of its fields, of which `size` is told.  A stray byte behind its
closing bracket does not matter as long as a token stands between them. -/
theorem instructions_of_breach_of_missingField :
    let before := ascii "(functions:[Function(id:1)"
    let front : List Token :=
      [⟨.mark .leftParen, ⟨7, 1, 1⟩⟩, ⟨.identifier functionsField, ⟨7, 1, 2⟩⟩,
        ⟨.mark .colon, ⟨7, 1, 11⟩⟩, ⟨.mark .leftBracket, ⟨7, 1, 12⟩⟩]
    let culprit : List Token :=
      [⟨.identifier StructName.function.spelling, ⟨7, 1, 13⟩⟩, ⟨.mark .leftParen, ⟨7, 1, 21⟩⟩,
        ⟨.identifier FunctionField.id.spelling, ⟨7, 1, 22⟩⟩, ⟨.mark .colon, ⟨7, 1, 24⟩⟩,
        ⟨.integer 1, ⟨7, 1, 25⟩⟩, ⟨.mark .rightParen, ⟨7, 1, 26⟩⟩]
    let reason : Reason := .missingField FunctionField.size.spelling .function
    ∃ last, (Scanner.ofSource 7 before).HandsOut (front ++ culprit) last ∧ last.rest = [] ∧
      Breach (front.map Token.lexeme) (culprit.map Token.lexeme) reason ∧
      instructions 7 (before ++ ascii ",@") = .error ⟨reason, ⟨7, 1, 13⟩⟩ ∧
      instructions 7 (before ++ ascii "\n@") =
        .error ⟨.lexical (.unexpectedByte '@'.toUInt8), ⟨7, 2, 1⟩⟩ := by
  intro before front culprit reason
  let last := (Scanner.handOut 10 (Scanner.ofSource 7 before)).2
  have tokens : (Scanner.handOut 10 (Scanner.ofSource 7 before)).1 = front ++ culprit := by
    decide +kernel
  have handed : (Scanner.ofSource 7 before).HandsOut (front ++ culprit) last := by
    rw [← tokens]
    exact Scanner.handsOut_handOut 10 _
  have whole : last.rest = [] := by decide +kernel
  have breach : Breach (front.map Token.lexeme) (culprit.map Token.lexeme) reason := by
    apply @Breach.fieldMissing _ _ _ [.id 1] .size
    · exact @FunctionsFront.functions [.mark .leftParen] [] []
        (@CatalogFront.fields none [.mark .leftParen] [] [] .unnamed .nil rfl) .nil
    · exact .last (.named (.known rfl) (.id 1))
    · refine ⟨by decide, ?_⟩
      intro entries member
      cases member with
      | tail _ later => cases later
    · exact .named
    · decide
  obtain ⟨first, same, told⟩ := instructions_of_breach handed whole breach
  cases same
  refine ⟨last, handed, whole, breach, ?_, ?_⟩
  · rw [told]
    exact congrArg Except.error (by decide +kernel)
  · rw [told]
    exact congrArg Except.error (by decide +kernel)

/-- Right behind the field name that comes again, a stray byte is told in its place. -/
theorem repeatedField_not_told_of_strayByte :
    let before := ascii "(functions:[],functions:"
    let front : List Token :=
      [⟨.mark .leftParen, ⟨0, 1, 1⟩⟩, ⟨.identifier functionsField, ⟨0, 1, 2⟩⟩,
        ⟨.mark .colon, ⟨0, 1, 11⟩⟩, ⟨.mark .leftBracket, ⟨0, 1, 12⟩⟩,
        ⟨.mark .rightBracket, ⟨0, 1, 13⟩⟩, ⟨.mark .comma, ⟨0, 1, 14⟩⟩]
    let again : List Token :=
      [⟨.identifier functionsField, ⟨0, 1, 15⟩⟩, ⟨.mark .colon, ⟨0, 1, 24⟩⟩]
    let reason : Reason := .duplicateField functionsField
    ∃ last, (Scanner.ofSource 0 before).HandsOut (front ++ again) last ∧ last.rest = [] ∧
      Breach (front.map Token.lexeme) (again.map Token.lexeme) reason ∧
      instructions 0 (before ++ ascii "@") ≠ .error ⟨reason, ⟨0, 1, 15⟩⟩ ∧
      instructions 0 (before ++ ascii "@") =
        .error ⟨.lexical (.unexpectedByte '@'.toUInt8), ⟨0, 1, 25⟩⟩ := by
  intro before front again reason
  have tokens : (Scanner.handOut 8 (Scanner.ofSource 0 before)).1 = front ++ again := by
    decide +kernel
  have handed := Scanner.handsOut_handOut 8 (Scanner.ofSource 0 before)
  rw [tokens] at handed
  have told : refusal? 0 (before ++ ascii "@") =
      some ⟨.lexical (.unexpectedByte '@'.toUInt8), ⟨0, 1, 25⟩⟩ := by
    decide +kernel
  have refused := refusal?_eq_some_iff.mp told
  have list : CatalogFieldText (.functions []) [.identifier functionsField, .mark .colon,
      .mark .leftBracket, .mark .rightBracket] :=
    @CatalogFieldText.functions [] [] .nil
  refine ⟨_, handed, by decide +kernel, ?_, ?_, refused⟩
  · apply @Breach.functionsAgain _ []
    exact @CatalogFront.fields (some []) [.mark .leftParen] _ [.functions []] .unnamed
      (.cons list .nil) rfl
  · rw [refused]
    intro same
    have reasons : .lexical _ = Reason.duplicateField _ :=
      congrArg Refusal.reason (Except.error.inj same)
    cases reasons

end OpcodeCatalog.Source

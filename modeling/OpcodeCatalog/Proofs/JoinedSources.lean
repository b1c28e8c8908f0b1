import OpcodeCatalog.Proofs.GapTexts

/-!
# Joined sources

Where a text without a fault ends, a new line ends whatever stands in front of
it: no lexeme and no comment of the first text goes on behind it.  The lexemes
of two texts with a gap between them are therefore those of the first text and
then those of the second, if that gap begins with a new line.
-/

namespace OpcodeCatalog.Source

/-- A later front where nothing more is found at this one. -/
def Front.orElse (front later : Front) : Front :=
  match front with
  | .finished => later
  | found => found

theorem Front.after_orElse (front later : Front) (before : Nat) :
    (front.orElse later).after before = (front.after before).orElse (later.after before) := by
  cases front <;> rfl

theorem delimited_newline (tail : Bytes) : Delimited (Ascii.newline :: tail) := by
  intro byte front
  cases front
  rfl

theorem Scanned.append {first : UInt8} {text tail : Bytes} {found : Lexeme} {width : Nat}
    (scanned : Scanned first text found width) (delimited : Delimited tail) :
    Scanned first (text ++ tail) found width := by
  obtain ⟨used, rest, rfl, rfl, again⟩ := scanned.split
  rw [List.append_assoc]
  apply again
  cases rest with
  | nil => exact .inr delimited
  | cons byte rest => exact .inl rfl

/-- What a text and a later one have at their front when they are joined. -/
def JoinsFront (text tail : Bytes) : Prop :=
  front (text ++ tail) = (front text).orElse ((front tail).after text.length)

/-- One gap more in front of a text leaves it joined. -/
theorem JoinsFront.behind {text rest tail : Bytes} {before : Nat} (joins : JoinsFront rest tail)
    (moved : front text = (front rest).after before)
    (movedJoined : front (text ++ tail) = (front (rest ++ tail)).after before)
    (length : text.length = before + rest.length) : JoinsFront text tail := by
  unfold JoinsFront at joins ⊢
  rw [movedJoined, joins, Front.after_orElse, Front.after_after, moved, length]

theorem joinsFront_other {first : UInt8} {rest tail : Bytes}
    (notBlank : Ascii.isBlank first = false) (notSlash : first ≠ Ascii.slash)
    (faultless : (front (first :: rest)).Faultless) (delimited : Delimited tail) :
    JoinsFront (first :: rest) tail := by
  have noGap := Gap.width_other notBlank notSlash
  unfold JoinsFront
  rw [List.cons_append, front_ofSpan (noGap _)]
  rw [front_ofSpan (noGap _)] at faultless ⊢
  generalize whole : lexeme first rest = span at faultless ⊢
  obtain ⟨read, width⟩ := span
  cases read with
  | error reason => exact (faultless reason rfl).elim
  | ok found =>
      have scanned := (lexeme_eq_ok_iff.mp whole).append delimited
      rw [lexeme_eq_ok_iff.mpr scanned]
      rfl

theorem Gap.restOfLine_le_length (text : Bytes) : restOfLine text ≤ text.length :=
  (List.takeWhile_prefix _).length_le

theorem Gap.restOfLine_append_newline (text tail : Bytes) :
    restOfLine (text ++ Ascii.newline :: tail) = restOfLine text := by
  obtain ⟨inLine, ends⟩ := split_restOfLine text
  have split := List.take_append_drop (restOfLine text) text
  have length := List.length_take_of_le (restOfLine_le_length text)
  rw [← length]
  rcases ends with empty | ⟨rest, behind⟩
  · rw [empty, List.append_nil] at split
    rw [split] at inLine ⊢
    exact restOfLine_of_text inLine tail
  · rw [behind] at split
    have whole : text ++ Ascii.newline :: tail =
        text.take (restOfLine text) ++ Ascii.newline :: (rest ++ Ascii.newline :: tail) := by
      conv => lhs; rw [← split]
      simp
    rw [whole]
    exact restOfLine_of_text inLine _

/-- The induction is on the gaps with which the first text begins. -/
theorem joinsFront_newline {text : Bytes} (faultless : (front text).Faultless) (tail : Bytes) :
    JoinsFront text (Ascii.newline :: tail) := by
  have opening := Gap.opening text
  induction opening with
  | nothing =>
      unfold JoinsFront
      rw [front_nil, List.nil_append, List.length_nil, Front.after_zero]
      rfl
  | blank blank _ induction =>
      have moved := front_blank blank
      rw [moved] at faultless
      exact (induction faultless.of_after).behind (moved _) (moved _) (Nat.add_comm _ 1)
  | @line inside _ induction =>
      have moved := front_line inside
      rw [moved] at faultless
      have bound := Gap.restOfLine_le_length inside
      refine (induction faultless.of_after).behind moved ?_ ?_
      · have movedJoined := front_line (inside ++ Ascii.newline :: tail)
        rw [Gap.restOfLine_append_newline, List.drop_append_of_le_length bound] at movedJoined
        exact movedJoined
      · simp only [List.length_cons, List.length_drop]
        omega
  | @block inside comment closed _ induction =>
      have moved := front_block closed
      rw [moved] at faultless
      obtain ⟨bound, text⟩ := Gap.commentText_of_blockComment closed
      refine (induction faultless.of_after).behind moved ?_ ?_
      · have again := Gap.blockComment_of_text text (inside.drop comment ++ Ascii.newline :: tail)
        rw [← List.append_assoc, List.take_append_drop, List.length_take_of_le bound] at again
        have movedJoined := front_block again
        rw [List.drop_append_of_le_length bound] at movedJoined
        exact movedJoined
      · simp only [List.length_cons, List.length_drop]
        omega
  | unterminated unclosed =>
      rw [front_unterminated unclosed] at faultless
      exact (faultless _ rfl).elim
  | slash noGap => exact (not_faultless_slash noGap faultless).elim
  | other notBlank notSlash =>
      exact joinsFront_other notBlank notSlash faultless (delimited_newline tail)

/-- A lexeme lies within its text. -/
theorem le_length_of_front {text : Bytes} {found : Lexeme} {gap width : Nat}
    (read : front text = .lexeme found gap width) : gap + width ≤ text.length := by
  obtain ⟨_, first, rest, behind, scanned⟩ := front_eq_lexeme_iff.mp read
  obtain ⟨used, later, rfl, rfl, _⟩ := (lexeme_eq_ok_iff.mp scanned).split
  have length := congrArg List.length behind
  simp only [List.length_drop, List.length_cons, List.length_append] at length
  omega

/-- A text without a fault shows its lexemes in front of a new line, whatever follows. -/
theorem shows_of_faultless {text : Bytes} (faultless : (lexed text).fault = none) :
    Shows text (lexed text).lexemes (fun tail => ∃ rest, tail = Ascii.newline :: rest) := by
  intro tail newline
  obtain ⟨rest, rfl⟩ := newline
  induction text using lexed.induct with
  | case1 text read =>
      have joins := joinsFront_newline (front_faultless faultless) rest
      rw [JoinsFront, read] at joins
      rw [lexed_of_finished read]
      exact lexemes_of_front_after List.drop_left joins
  | case2 text reason read => exact (front_faultless faultless reason read).elim
  | case3 text found gap width read induction =>
      have joins := joinsFront_newline (front_faultless faultless) rest
      rw [JoinsFront, read] at joins
      have behind : (text ++ Ascii.newline :: rest).drop (gap + width) =
          text.drop (gap + width) ++ Ascii.newline :: rest :=
        List.drop_append_of_le_length (le_length_of_front read)
      rw [lexed_of_lexeme read] at faultless ⊢
      obtain ⟨lexemes, fault⟩ := induction faultless
      rw [lexed_of_lexeme joins, behind]
      simp only [Lexed.lexemes_behind, Lexed.fault_behind, lexemes, fault, List.cons_append,
        and_self]

/-- The tokens of two sources with a gap between them that begins with a new line, places
apart: those of the first source, and then all of the second one's, a fault included. -/
theorem tokens_of_joined (file : UInt32) {before gap : Bytes} (after : Bytes)
    (faultless : (TokenStream.ofSource file before).ending.fault = none)
    (newline : gap.head? = some Ascii.newline) (text : GapText gap) :
    (TokenStream.ofSource file (before ++ gap ++ after)).lexemes =
        (TokenStream.ofSource file before).lexemes ++ (TokenStream.ofSource file after).lexemes ∧
      (TokenStream.ofSource file (before ++ gap ++ after)).ending.fault =
        (TokenStream.ofSource file after).ending.fault := by
  simp only [TokenStream.fault_ofSource, TokenStream.lexemes_ofSource] at faultless ⊢
  obtain ⟨rest, rfl⟩ := List.head?_eq_some_iff.mp newline
  have joined := (shows_of_faultless faultless).append (shows_gapText text) fun tail _ =>
    ⟨rest ++ tail, rfl⟩
  have shown := joined after trivial
  rwa [List.append_nil] at shown

/-- A text that ends inside the comment of its last line, and a gap with comments in a comment,
in front of an unexpected byte. -/
theorem tokens_of_joined_of_comments :
    let before := ascii "id: 0x1F // size"
    let gap := ascii "\n/* a /*/* b */*/ c **/ // d\n"
    let after := ascii "r#\"e\"# ?"
    (TokenStream.ofSource 1 before).ending.fault = none ∧ GapText gap ∧
      (TokenStream.ofSource 1 (before ++ gap ++ after)).lexemes =
        (TokenStream.ofSource 1 before).lexemes ++ (TokenStream.ofSource 1 after).lexemes ∧
      (TokenStream.ofSource 1 (before ++ gap ++ after)).ending.fault =
        (TokenStream.ofSource 1 after).ending.fault := by
  intro before gap after
  have faultless : (TokenStream.ofSource 1 before).ending.fault = none := by
    decide +kernel
  have text : GapText gap := by
    have skipped : Gap.width (gap ++ [Ascii.quote]) = some gap.length := by decide +kernel
    rcases passedOver_of_width skipped with inside | ⟨ended, _⟩
    · rwa [List.take_left] at inside
    · rw [List.drop_left] at ended
      cases ended
  exact ⟨faultless, text, tokens_of_joined 1 after faultless rfl text⟩

end OpcodeCatalog.Source

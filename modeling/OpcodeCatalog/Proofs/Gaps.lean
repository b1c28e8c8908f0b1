import OpcodeCatalog.Proofs.Lexing

/-!
# Gaps and the lexemes behind them

A blank or a comment at the front of a text moves what stands behind it and
changes nothing else, so the lexemes of a text can be told one gap at a time.
-/

namespace OpcodeCatalog.Source

namespace Gap

theorem width_blank {first : UInt8} (blank : Ascii.isBlank first = true) (rest : Bytes) :
    width (first :: rest) = (width rest).map (1 + ·) := by
  rw [width.eq_def]
  simp only [if_pos blank]

theorem width_slash : width [Ascii.slash] = some 0 := by
  rw [width]
  rfl

theorem width_line (inside : Bytes) :
    width (Ascii.slash :: Ascii.slash :: inside) =
      (width (inside.drop (restOfLine inside))).map (2 + restOfLine inside + ·) := by
  rw [width]
  rfl

theorem width_block {inside : Bytes} {comment : Nat}
    (closed : blockComment 1 inside = some comment) :
    width (Ascii.slash :: Ascii.star :: inside) =
      (width (inside.drop comment)).map (2 + comment + ·) := by
  rw [width, closed]
  rfl

theorem width_unterminated {inside : Bytes} (unclosed : blockComment 1 inside = none) :
    width (Ascii.slash :: Ascii.star :: inside) = none := by
  rw [width, unclosed]
  rfl

theorem width_other {first : UInt8} (notBlank : Ascii.isBlank first = false)
    (notSlash : first ≠ Ascii.slash) (rest : Bytes) : width (first :: rest) = some 0 := by
  rw [width.eq_def]
  simp only [if_neg (Bool.eq_false_iff.mp notBlank), if_neg notSlash]

theorem width_loneSlash {second : UInt8} (notSlash : second ≠ Ascii.slash)
    (notStar : second ≠ Ascii.star) (rest : Bytes) :
    width (Ascii.slash :: second :: rest) = some 0 := by
  rw [width]
  simp only [if_neg notSlash, if_neg notStar]
  rfl

/-- How a text may begin: with nothing, with one gap more, or with no gap.  A slash that
begins no comment is apart, since what follows a slash may make it begin one. -/
inductive Opening : Bytes → Prop where
  | nothing : Opening []
  | blank {first : UInt8} {rest : Bytes} :
      Ascii.isBlank first = true → Opening rest → Opening (first :: rest)
  | line {inside : Bytes} :
      Opening (inside.drop (restOfLine inside)) →
      Opening (Ascii.slash :: Ascii.slash :: inside)
  | block {inside : Bytes} {comment : Nat} :
      blockComment 1 inside = some comment →
      Opening (inside.drop comment) →
      Opening (Ascii.slash :: Ascii.star :: inside)
  | unterminated {inside : Bytes} :
      blockComment 1 inside = none → Opening (Ascii.slash :: Ascii.star :: inside)
  | slash {rest : Bytes} :
      width (Ascii.slash :: rest) = some 0 → Opening (Ascii.slash :: rest)
  | other {first : UInt8} {rest : Bytes} :
      Ascii.isBlank first = false → first ≠ Ascii.slash → Opening (first :: rest)

theorem opening_slash (rest : Bytes)
    (shorter : ∀ (later : Bytes) (count : Nat), later.length < rest.length →
      Opening (later.drop count)) :
    Opening (Ascii.slash :: rest) := by
  cases rest with
  | nil => exact .slash width_slash
  | cons second inside =>
      have fewer : inside.length < (second :: inside).length := Nat.lt_succ_self _
      by_cases line : second = Ascii.slash
      · subst line
        exact .line (shorter inside _ fewer)
      · by_cases block : second = Ascii.star
        · subst block
          cases closed : blockComment 1 inside with
          | none => exact .unterminated closed
          | some comment => exact .block closed (shorter inside comment fewer)
        · exact .slash (width_loneSlash line block inside)

/-- The recursion is on the length of the text, which every gap shortens. -/
theorem opening (text : Bytes) : Opening text := by
  cases text with
  | nil => exact .nothing
  | cons first rest =>
      by_cases blank : Ascii.isBlank first = true
      · exact .blank blank (opening rest)
      · by_cases slash : first = Ascii.slash
        · subst slash
          apply opening_slash
          intro later count _
          exact opening (later.drop count)
        · exact .other (Bool.eq_false_iff.mpr blank) slash
termination_by text.length
decreasing_by
  · simp
  · simp
    omega

end Gap

/-- What stands at the front, as seen from further to the front of the text. -/
def Front.after (before : Nat) : Front → Front
  | .finished => .finished
  | .fault reason => .fault reason
  | .lexeme found gap width => .lexeme found (before + gap) width

theorem Front.after_after (front : Front) (first second : Nat) :
    (front.after second).after first = front.after (first + second) := by
  cases front with
  | finished => rfl
  | fault reason => rfl
  | lexeme found gap width => simp only [after, Nat.add_assoc]

theorem Front.after_zero (front : Front) : front.after 0 = front := by
  cases front with
  | finished => rfl
  | fault reason => rfl
  | lexeme found gap width => rw [after, Nat.zero_add]

def Front.Faultless (front : Front) : Prop :=
  ∀ reason, front ≠ .fault reason

theorem Front.Faultless.of_after {front : Front} {before : Nat}
    (faultless : (front.after before).Faultless) : front.Faultless := by
  intro reason same
  exact faultless reason (congrArg (Front.after before) same)

/-- A front with nothing in front of its lexeme. -/
def Front.ofSpan (span : Span (Except LexicalFault Lexeme)) : Front :=
  match span.value with
  | .ok found => .lexeme found 0 span.width
  | .error reason => .fault reason

theorem front_after {text : Bytes} {before : Nat}
    (skipped : Gap.width text = (Gap.width (text.drop before)).map (before + ·)) :
    front text = (front (text.drop before)).after before := by
  unfold front
  rw [skipped]
  cases Gap.width (text.drop before) with
  | none => rfl
  | some gap =>
      simp only [Option.map_some, ← List.drop_drop]
      cases (text.drop before).drop gap with
      | nil => rfl
      | cons first rest =>
          simp only
          cases (lexeme first rest).value <;> rfl

theorem front_nil : front [] = .finished := by
  unfold front
  rw [Gap.width]
  rfl

theorem front_blank {first : UInt8} (blank : Ascii.isBlank first = true) (rest : Bytes) :
    front (first :: rest) = (front rest).after 1 :=
  front_after (Gap.width_blank blank rest)

theorem front_line (inside : Bytes) :
    front (Ascii.slash :: Ascii.slash :: inside) =
      (front (inside.drop (Gap.restOfLine inside))).after (2 + Gap.restOfLine inside) := by
  have dropped : (Ascii.slash :: Ascii.slash :: inside).drop (2 + Gap.restOfLine inside) =
      inside.drop (Gap.restOfLine inside) := by
    rw [← List.drop_drop]
    rfl
  rw [← dropped]
  apply front_after
  rw [dropped]
  exact Gap.width_line inside

theorem front_block {inside : Bytes} {comment : Nat}
    (closed : Gap.blockComment 1 inside = some comment) :
    front (Ascii.slash :: Ascii.star :: inside) =
      (front (inside.drop comment)).after (2 + comment) := by
  have dropped : (Ascii.slash :: Ascii.star :: inside).drop (2 + comment) =
      inside.drop comment := by
    rw [← List.drop_drop]
    rfl
  rw [← dropped]
  apply front_after
  rw [dropped]
  exact Gap.width_block closed

theorem front_unterminated {inside : Bytes} (unclosed : Gap.blockComment 1 inside = none) :
    front (Ascii.slash :: Ascii.star :: inside) = .fault .unterminatedComment := by
  unfold front
  rw [Gap.width_unterminated unclosed]

/-- Without a gap the lexeme is at the very front. -/
theorem front_ofSpan {first : UInt8} {rest : Bytes} (noGap : Gap.width (first :: rest) = some 0) :
    front (first :: rest) = .ofSpan (lexeme first rest) := by
  unfold front Front.ofSpan
  rw [noGap]
  rfl

theorem front_faultless {text : Bytes} (faultless : (lexed text).fault = none) :
    (front text).Faultless := by
  intro reason read
  rw [lexed_of_fault read] at faultless
  cases faultless

/-- The lexemes of a text with a gap in front are those behind the gap. -/
theorem lexemes_of_front_after {text rest : Bytes} {before : Nat}
    (dropped : text.drop before = rest) (moved : front text = (front rest).after before) :
    (lexed text).lexemes = (lexed rest).lexemes ∧ (lexed text).fault = (lexed rest).fault := by
  cases read : front rest with
  | finished =>
      rw [read] at moved
      rw [lexed_of_finished moved, lexed_of_finished read]
      exact ⟨rfl, rfl⟩
  | fault fault =>
      rw [read] at moved
      rw [lexed_of_fault moved, lexed_of_fault read]
      exact ⟨rfl, rfl⟩
  | lexeme found gap width =>
      rw [read] at moved
      rw [lexed_of_lexeme moved, lexed_of_lexeme read, Nat.add_assoc, ← List.drop_drop, dropped]
      simp

end OpcodeCatalog.Source

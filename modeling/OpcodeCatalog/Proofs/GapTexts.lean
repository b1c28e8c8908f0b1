import OpcodeCatalog.Proofs.SelfDelimiting
import OpcodeCatalog.Proofs.WrittenTexts

/-!
# The texts of gaps

Which texts mean nothing, told without a scanner: blanks, comments up to the end
of their line, and block comments in which every opening pair has its closing
one.  A scanner passes over such a text, and what it passes over is such a text.
-/

namespace OpcodeCatalog.Source

namespace Gap

/-- What stands inside so many open block comments, up to the end of the outermost one.
The pairs of bytes that open and close comments are taken from left to right. -/
inductive CommentText : Nat → Bytes → Prop where
  | closed : CommentText 0 []
  | opening {depth : Nat} {rest : Bytes} :
      CommentText (depth + 2) rest →
      CommentText (depth + 1) (Ascii.slash :: Ascii.star :: rest)
  | closing {depth : Nat} {rest : Bytes} :
      CommentText depth rest →
      CommentText (depth + 1) (Ascii.star :: Ascii.slash :: rest)
  | plain {depth : Nat} {first second : UInt8} {rest : Bytes} :
      ¬ (first = Ascii.slash ∧ second = Ascii.star) →
      ¬ (first = Ascii.star ∧ second = Ascii.slash) →
      CommentText (depth + 1) (second :: rest) →
      CommentText (depth + 1) (first :: second :: rest)

end Gap

/-- A text of blanks and comments only.  A comment that ends with its line leaves the newline
to what follows it. -/
inductive GapText : Bytes → Prop where
  | nil : GapText []
  | blank {first : UInt8} {rest : Bytes} :
      Ascii.isBlank first = true → GapText rest → GapText (first :: rest)
  | line {comment rest : Bytes} :
      Ascii.newline ∉ comment →
      GapText (Ascii.newline :: rest) →
      GapText (Ascii.slash :: Ascii.slash :: (comment ++ Ascii.newline :: rest))
  | block {comment rest : Bytes} :
      Gap.CommentText 1 comment →
      GapText rest →
      GapText (Ascii.slash :: Ascii.star :: (comment ++ rest))

/-- A gap that ends the source may end inside the comment of its last line. -/
inductive LastGapText : Bytes → Prop where
  | whole {gap : Bytes} : GapText gap → LastGapText gap
  | line {gap comment : Bytes} :
      GapText gap →
      Ascii.newline ∉ comment →
      LastGapText (gap ++ Ascii.slash :: Ascii.slash :: comment)

namespace Gap

theorem blockComment_of_text {depth : Nat} {comment : Bytes} (text : CommentText depth comment)
    (rest : Bytes) : blockComment depth (comment ++ rest) = some comment.length := by
  induction text with
  | closed => exact blockComment_zero rest
  | opening _ induction =>
      simp only [List.cons_append]
      rw [blockComment_opening (Nat.add_one_ne_zero _), induction]
      exact congrArg some (Nat.add_comm 2 _)
  | closing _ induction =>
      simp only [List.cons_append]
      rw [blockComment_closing (Nat.add_one_ne_zero _), Nat.add_sub_cancel, induction]
      exact congrArg some (Nat.add_comm 2 _)
  | plain notOpening notClosing _ induction =>
      simp only [List.cons_append] at induction ⊢
      rw [blockComment_plain (Nat.add_one_ne_zero _) notOpening notClosing, induction]
      exact congrArg some (Nat.add_comm 1 _)

/-- What is read as the rest of block comments is the text of such a rest. -/
theorem commentText_of_blockComment {depth : Nat} {text : Bytes} {width : Nat}
    (read : blockComment depth text = some width) :
    width ≤ text.length ∧ CommentText depth (text.take width) := by
  induction depth, text using blockComment.induct generalizing width with
  | case1 text =>
      rw [blockComment_zero] at read
      cases read
      exact ⟨Nat.zero_le _, .closed⟩
  | case2 depth inside =>
      rw [blockComment, if_neg inside] at read
      cases read
  | case3 depth inside byte =>
      rw [blockComment, if_neg inside] at read
      cases read
  | case4 depth inside first second rest opening induction =>
      obtain ⟨rfl, rfl⟩ := opening
      obtain ⟨depth, rfl⟩ := Nat.exists_eq_succ_of_ne_zero inside
      rw [blockComment_opening inside] at read
      obtain ⟨later, readLater, rfl⟩ := Option.map_eq_some_iff.mp read
      obtain ⟨bound, text⟩ := induction readLater
      rw [Nat.add_comm 2]
      exact ⟨Nat.add_le_add_right bound 2, .opening text⟩
  | case5 depth inside first second rest _ closing induction =>
      obtain ⟨rfl, rfl⟩ := closing
      obtain ⟨depth, rfl⟩ := Nat.exists_eq_succ_of_ne_zero inside
      rw [blockComment_closing inside] at read
      obtain ⟨later, readLater, rfl⟩ := Option.map_eq_some_iff.mp read
      obtain ⟨bound, text⟩ := induction readLater
      rw [Nat.add_comm 2]
      exact ⟨Nat.add_le_add_right bound 2, .closing text⟩
  | case6 depth inside first second rest notOpening notClosing induction =>
      obtain ⟨depth, rfl⟩ := Nat.exists_eq_succ_of_ne_zero inside
      rw [blockComment_plain inside notOpening notClosing] at read
      obtain ⟨later, readLater, rfl⟩ := Option.map_eq_some_iff.mp read
      obtain ⟨bound, text⟩ := induction readLater
      rw [Nat.add_comm 1]
      cases later with
      | zero => cases text
      | succ later => exact ⟨Nat.add_le_add_right bound 1, .plain notOpening notClosing text⟩

theorem restOfLine_of_text {comment : Bytes} (inLine : Ascii.newline ∉ comment) (rest : Bytes) :
    restOfLine (comment ++ Ascii.newline :: rest) = comment.length := by
  unfold restOfLine
  have plain : ∀ byte ∈ comment, decide (byte ≠ Ascii.newline) = true := by
    intro byte member
    apply decide_eq_true
    intro same
    rw [same] at member
    exact inLine member
  rw [List.takeWhile_append_of_pos plain, List.takeWhile_cons_of_neg (by simp), List.append_nil]

/-- What stands before the end of the line, and what follows it. -/
theorem split_restOfLine (text : Bytes) :
    Ascii.newline ∉ text.take (restOfLine text) ∧
      (text.drop (restOfLine text) = [] ∨
        ∃ rest, text.drop (restOfLine text) = Ascii.newline :: rest) := by
  induction text with
  | nil => simp
  | cons byte text induction =>
      by_cases newline : byte = Ascii.newline
      · subst newline
        have empty : restOfLine (Ascii.newline :: text) = 0 := by simp [restOfLine]
        rw [empty]
        exact ⟨List.not_mem_nil, .inr ⟨text, rfl⟩⟩
      · have longer : restOfLine (byte :: text) = restOfLine text + 1 := by
          simp [restOfLine, newline]
        rw [longer, List.take_succ_cons, List.drop_succ_cons, List.mem_cons, not_or]
        exact ⟨⟨Ne.symm newline, induction.1⟩, induction.2⟩

end Gap

namespace GapText

theorem append {first second : Bytes} (text : GapText first) (later : GapText second) :
    GapText (first ++ second) := by
  induction text with
  | nil => exact later
  | blank blank _ induction => exact .blank blank induction
  | @line comment rest inLine _ induction =>
      have joined := GapText.line inLine induction
      simpa using joined
  | @block comment rest text _ induction =>
      have joined := GapText.block text induction
      simpa using joined

theorem appendLast {first second : Bytes} (text : GapText first) (later : LastGapText second) :
    LastGapText (first ++ second) := by
  cases later with
  | whole later => exact .whole (text.append later)
  | line later inLine =>
      rw [← List.append_assoc]
      exact .line (text.append later) inLine

end GapText

/-- The comment of a line in front of the last gap. -/
theorem LastGapText.behindLine {comment rest : Bytes} (inLine : Ascii.newline ∉ comment)
    (text : LastGapText (Ascii.newline :: rest)) :
    LastGapText (Ascii.slash :: Ascii.slash :: (comment ++ Ascii.newline :: rest)) := by
  generalize later : Ascii.newline :: rest = all at text
  cases text with
  | whole text =>
      subst later
      exact .whole (.line inLine text)
  | @line gap last text lastInLine =>
      cases gap with
      | nil => cases later
      | cons byte gap =>
          cases later
          have whole := LastGapText.line (GapText.line inLine text) lastInLine
          simpa using whole

/-- What a scanner passes over: a gap in front of something, or a gap that ends the source. -/
def PassedOver (text : Bytes) (width : Nat) : Prop :=
  GapText (text.take width) ∨ text.drop width = [] ∧ LastGapText (text.take width)

namespace PassedOver

theorem behind {gap text : Bytes} {width : Nat} (passed : PassedOver text width)
    (isGap : GapText gap) : PassedOver (gap ++ text) (gap.length + width) := by
  unfold PassedOver
  rw [List.take_length_add_append, ← List.drop_drop, List.drop_left]
  rcases passed with inside | ⟨last, text⟩
  · exact .inl (isGap.append inside)
  · exact .inr ⟨last, isGap.appendLast text⟩

theorem last {text : Bytes} {width : Nat} (passed : PassedOver text width) :
    LastGapText (text.take width) := by
  rcases passed with inside | ⟨_, last⟩
  · exact .whole inside
  · exact last

end PassedOver

/-- The comment of a line is passed over with what follows it. -/
theorem passedOver_line {inside : Bytes} {width : Nat}
    (skipped : Gap.width (inside.drop (Gap.restOfLine inside)) = some width)
    (passed : PassedOver (inside.drop (Gap.restOfLine inside)) width) :
    PassedOver (Ascii.slash :: Ascii.slash :: inside) (2 + Gap.restOfLine inside + width) := by
  obtain ⟨inLine, ends⟩ := Gap.split_restOfLine inside
  have taken : (Ascii.slash :: Ascii.slash :: inside).take (2 + Gap.restOfLine inside + width) =
      Ascii.slash :: Ascii.slash :: (inside.take (Gap.restOfLine inside) ++
        (inside.drop (Gap.restOfLine inside)).take width) := by
    rw [← List.take_add, Nat.add_assoc, Nat.add_comm 2]
    rfl
  have dropped : (Ascii.slash :: Ascii.slash :: inside).drop
      (2 + Gap.restOfLine inside + width) =
        (inside.drop (Gap.restOfLine inside)).drop width := by
    rw [List.drop_drop, Nat.add_assoc, Nat.add_comm 2]
    rfl
  unfold PassedOver at passed ⊢
  rw [taken, dropped]
  rcases ends with empty | ⟨rest, behind⟩
  · rw [empty, List.take_nil, List.append_nil, List.drop_nil]
    exact .inr ⟨rfl, .line .nil inLine⟩
  · rw [behind] at skipped passed ⊢
    rw [Gap.width_blank rfl] at skipped
    obtain ⟨later, _, rfl⟩ := Option.map_eq_some_iff.mp skipped
    rw [Nat.add_comm 1, List.take_succ_cons] at passed ⊢
    rcases passed with text | ⟨last, text⟩
    · exact .inl (.line inLine text)
    · exact .inr ⟨last, text.behindLine inLine⟩

/-- What a scanner passes over is the text of a gap.  The induction is on the gaps with which
the text begins. -/
theorem passedOver_of_width {text : Bytes} {gap : Nat} (skipped : Gap.width text = some gap) :
    PassedOver text gap := by
  have opening := Gap.opening text
  induction opening generalizing gap with
  | nothing =>
      rw [Gap.width] at skipped
      cases skipped
      exact .inl .nil
  | @blank first rest blank _ induction =>
      rw [Gap.width_blank blank] at skipped
      obtain ⟨later, readLater, rfl⟩ := Option.map_eq_some_iff.mp skipped
      exact (induction readLater).behind (.blank blank .nil)
  | @line inside _ induction =>
      rw [Gap.width_line] at skipped
      obtain ⟨later, readLater, rfl⟩ := Option.map_eq_some_iff.mp skipped
      exact passedOver_line readLater (induction readLater)
  | @block inside comment closed _ induction =>
      rw [Gap.width_block closed] at skipped
      obtain ⟨later, readLater, rfl⟩ := Option.map_eq_some_iff.mp skipped
      obtain ⟨bound, text⟩ := Gap.commentText_of_blockComment closed
      have passed := (induction readLater).behind (GapText.block text .nil)
      have length : (Ascii.slash :: Ascii.star :: (inside.take comment ++ [])).length =
          2 + comment := by
        rw [List.append_nil, List.length_cons, List.length_cons, List.length_take_of_le bound,
          Nat.add_comm 2]
      rw [length, List.append_nil, List.cons_append, List.cons_append,
        List.take_append_drop] at passed
      exact passed
  | unterminated unclosed =>
      rw [Gap.width_unterminated unclosed] at skipped
      cases skipped
  | slash noGap =>
      rw [noGap] at skipped
      cases skipped
      exact .inl .nil
  | other notBlank notSlash =>
      rw [Gap.width_other notBlank notSlash] at skipped
      cases skipped
      exact .inl .nil

/-- A gap in front of something ends in no comment of its last line. -/
theorem gapText_take {text rest : Bytes} {first : UInt8} {gap : Nat}
    (skipped : Gap.width text = some gap) (behind : text.drop gap = first :: rest) :
    GapText (text.take gap) := by
  rcases passedOver_of_width skipped with inside | ⟨ended, _⟩
  · exact inside
  · rw [behind] at ended
    cases ended

/-- Behind a gap stands what stands there without it. -/
theorem front_gapText {gap : Bytes} (text : GapText gap) (tail : Bytes) :
    front (gap ++ tail) = (front tail).after gap.length := by
  induction text with
  | nil => exact (Front.after_zero _).symm
  | blank blank _ induction =>
      rw [List.cons_append, front_blank blank, induction, Front.after_after, List.length_cons,
        Nat.add_comm 1]
  | @line comment rest inLine _ induction =>
      rw [List.cons_append] at induction
      have moved := front_line (comment ++ Ascii.newline :: (rest ++ tail))
      rw [Gap.restOfLine_of_text inLine, List.drop_left, induction, Front.after_after,
        List.length_cons] at moved
      simp only [List.cons_append, List.append_assoc, List.length_cons, List.length_append]
      rw [moved]
      congr 1
      omega
  | @block comment rest commentText _ induction =>
      have moved := front_block (Gap.blockComment_of_text commentText (rest ++ tail))
      rw [List.drop_left, induction, Front.after_after] at moved
      simp only [List.cons_append, List.append_assoc, List.length_cons, List.length_append]
      rw [moved]
      congr 1
      omega

/-- A gap shows no lexemes. -/
theorem shows_gapText {gap : Bytes} (text : GapText gap) : Shows gap [] := by
  intro tail _
  exact lexemes_of_front_after List.drop_left (front_gapText text tail)

end OpcodeCatalog.Source

import OpcodeCatalog.Proofs.FaultyConstructs
import OpcodeCatalog.Proofs.TokenPlaces

/-!
# Where faults are located

The tokens up to a fault, the gap behind them and the faulty construct make up the
source.  Every fault but one is located where its construct begins.  A comment that
is never closed is found out while its gap is passed over, and is located where that
gap begins: at the comment itself only if nothing else stands in the gap.
-/

namespace OpcodeCatalog.Source

/-- Of all faults a comment that is never closed has no literal to it. -/
theorem Malformed.exists_inside {construct : Bytes}
    (malformed : Malformed .unterminatedComment construct) :
    ∃ inside, construct = Ascii.slash :: Ascii.star :: inside := by
  cases malformed with
  | comment => exact ⟨_, rfl⟩
  | number _ fails => cases Number.flaw_of_fails fails
  | quoted fails => cases Quoted.flaw_of_fails fails
  | raw _ fails => cases RawString.flaw_of_fails fails

theorem Malformed.ne_comment {fault : LexicalFault} {first : UInt8} {rest : Bytes}
    (malformed : Malformed fault (first :: rest)) (noGap : Gap.width (first :: rest) = some 0) :
    fault ≠ .unterminatedComment := by
  rintro rfl
  obtain ⟨inside, same⟩ := malformed.exists_inside
  obtain ⟨rfl, rfl⟩ := List.cons.inj same
  exact ((not_comment_of_noGap noGap).2 rfl _ rfl).2 rfl

/-- A fault behind a gap is located at its construct, or in front of the gap if it is that of a
comment. -/
structure FaultLocated (file : UInt32) (before gap : Bytes) (fault : LexicalFault)
    (place : Location) : Prop where
  construct : fault ≠ .unterminatedComment → LocatedBehind file (before ++ gap) place
  comment : fault = .unterminatedComment → LocatedBehind file before place

/-- Different texts, one of which continues the other, are not in front of the same place. -/
theorem LocatedBehind.eq_nil {file : UInt32} {before gap : Bytes} {place : Location}
    (first : LocatedBehind file before place) (second : LocatedBehind file (before ++ gap) place) :
    gap = [] := by
  have lines := first.line.symm.trans second.line
  have columns := first.column.symm.trans second.column
  have inLine : ∀ byte ∈ gap.reverse, decide (byte ≠ Ascii.newline) = true := by
    intro byte member
    apply decide_eq_true
    rintro rfl
    have counted := List.count_pos_iff.mpr (List.mem_reverse.mp member)
    rw [List.count_append] at lines
    omega
  rw [List.rtakeWhile, List.rtakeWhile, List.length_reverse, List.length_reverse,
    List.reverse_append, List.takeWhile_append_of_pos inLine, List.length_append,
    List.length_reverse] at columns
  apply List.length_eq_zero_iff.mp
  omega

/-- A comment is located where it begins if and only if its gap has nothing else. -/
theorem FaultLocated.locatedBehind_iff {file : UInt32} {before gap : Bytes} {place : Location}
    (located : FaultLocated file before gap .unterminatedComment place) :
    LocatedBehind file (before ++ gap) place ↔ gap = [] := by
  constructor
  · exact (located.comment rfl).eq_nil
  · rintro rfl
    rw [List.append_nil]
    exact located.comment rfl

namespace Scanner

/-- A fault: what is left of the source is a gap and the faulty construct. -/
theorem StandsBehind.exists_construct {scanner after : Scanner} {file : UInt32} {before : Bytes}
    {fault : LexicalFault} {place : Location} (stands : scanner.StandsBehind file before)
    (short : (before ++ scanner.rest).length < 2 ^ 32 - 1)
    (read : scanner.next = (.ending ⟨some fault, place⟩, after)) :
    ∃ gap construct, scanner.rest = gap ++ construct ∧ GapText gap ∧
      Malformed fault construct ∧ FaultLocated file before gap fault place := by
  unfold next at read
  rw [stands.sound] at read
  cases skipped : Gap.width scanner.rest with
  | none =>
      rw [skipped] at read
      cases read
      obtain ⟨gap, inside, split, text, unclosed⟩ := Gap.exists_unclosed_of_width skipped
      refine ⟨gap, _, split, text, .comment (Gap.blockComment_eq_none_iff.mp unclosed), ?_, ?_⟩
      · exact fun other => (other rfl).elim
      · intro _
        apply stands.located
        rw [List.length_append] at short
        omega
  | some gap =>
      simp only [skipped, Bool.false_eq_true, if_false] at read
      split at read
      · cases read
      · next first rest behind =>
          split at read
          · cases read
          · next failed =>
              cases read
              have noGap := Gap.width_drop skipped
              have dropped : scanner.rest.drop gap = first :: rest := behind
              rw [dropped] at noGap
              have malformed := malformed_of_lexeme noGap failed
              refine ⟨scanner.rest.take gap, first :: rest, ?_, gapText_take skipped dropped,
                malformed, ?_, ?_⟩
              · rw [← dropped, List.take_append_drop]
              · intro _
                apply (stands.skip gap).located
                have shorter := List.length_take_le' gap scanner.rest
                rw [List.length_append] at short ⊢
                omega
              · intro comment
                exact (malformed.ne_comment noGap comment).elim

end Scanner

/-- Wherever the tokens of a source end in a fault, they, the gap behind them and the faulty
construct make up the source.  The fault is located at the first byte of its construct, except
that a comment that is never closed is located where the gap in front of it begins. -/
theorem TokenStream.fault_located {file : UInt32} {source : Bytes} {fault : LexicalFault}
    {place : Location} (short : source.length < 2 ^ 32 - 1)
    (faulty : (ofSource file source).ending = ⟨some fault, place⟩) :
    ∃ (tiles : List Tile) (gap construct : Bytes),
      (ofSource file source).tokens = tiles.map Tile.token ∧
        source = tiles.flatMap Tile.bytes ++ gap ++ construct ∧ Tiled file [] tiles ∧
          GapText gap ∧ Malformed fault construct ∧
            FaultLocated file (tiles.flatMap Tile.bytes) gap fault place ∧
              (fault = .unterminatedComment →
                (LocatedBehind file (tiles.flatMap Tile.bytes ++ gap) place ↔ gap = [])) := by
  obtain ⟨last, after, handed, ended⟩ := Scanner.handsOut_run (Scanner.ofSource file source)
  obtain ⟨tiles, same, split, tiled, stands⟩ := handed.tiled (.ofSource file source) short
  rw [List.nil_append] at stands
  have whole : source = tiles.flatMap Tile.bytes ++ last.rest := split
  have read : last.next = (.ending ⟨some fault, place⟩, after) := by
    rw [ended, ← faulty]
    rfl
  obtain ⟨gap, construct, rest, text, malformed, located⟩ :=
    stands.exists_construct (by rwa [← whole]) read
  refine ⟨tiles, gap, construct, same, ?_, tiled, text, malformed, located, ?_⟩
  · rw [whole, rest, List.append_assoc]
  · rintro rfl
    exact located.locatedBehind_iff

/-- A number behind a comment that another one is inside of. -/
theorem TokenStream.fault_located_of_number :
    let source := ascii "(id:
 /* /* */ */ -12x"
    ∃ place : Location, source.length < 2 ^ 32 - 1 ∧
      (ofSource 7 source).ending = ⟨some (.invalidDigit 'x'.toUInt8), place⟩ ∧
        place = ⟨7, 2, 14⟩ ∧
          ∃ (tiles : List Tile) (gap construct : Bytes),
            (ofSource 7 source).tokens = tiles.map Tile.token ∧
              source = tiles.flatMap Tile.bytes ++ gap ++ construct ∧ Tiled 7 [] tiles ∧
                GapText gap ∧ Malformed (.invalidDigit 'x'.toUInt8) construct ∧
                  LocatedBehind 7 (tiles.flatMap Tile.bytes ++ gap) place := by
  intro source
  have short : source.length < 2 ^ 32 - 1 := by decide +kernel
  have faulty : (ofSource 7 source).ending =
      ⟨some (.invalidDigit 'x'.toUInt8), ⟨7, 2, 14⟩⟩ := by decide +kernel
  obtain ⟨tiles, gap, construct, tokens, split, tiled, text, malformed, located, _⟩ :=
    fault_located short faulty
  exact ⟨_, short, faulty, rfl, tiles, gap, construct, tokens, split, tiled, text, malformed,
    located.construct nofun⟩

/-- Two blanks are enough for a comment to be located in front of itself. -/
theorem TokenStream.comment_not_located :
    let source := ascii "  " ++ ascii "/* x"
    (ofSource 0 source).tokens = [] ∧ GapText (ascii "  ") ∧
      Malformed .unterminatedComment (ascii "/* x") ∧
        ∃ place, (ofSource 0 source).ending = ⟨some .unterminatedComment, place⟩ ∧
          ¬ LocatedBehind 0 (ascii "  ") place := by
  intro source
  have ending : (ofSource 0 source).ending = ⟨some .unterminatedComment, ⟨0, 1, 1⟩⟩ := by
    decide +kernel
  refine ⟨by decide +kernel, .blank rfl (.blank rfl .nil), ?_, _, ending, ?_⟩
  · have unclosed : Gap.blockComment 1 (ascii " x") = none := by decide
    exact .comment (Gap.blockComment_eq_none_iff.mp unclosed)
  · intro located
    have column : 1 = 3 := located.column
    cases column

end OpcodeCatalog.Source

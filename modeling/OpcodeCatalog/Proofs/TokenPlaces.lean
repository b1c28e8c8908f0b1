import OpcodeCatalog.Proofs.GapTexts
import Mathlib.Algebra.Group.Nat.Defs
import Mathlib.Data.List.DropRight

/-!
# Where tokens stand

A scanner counts lines and columns byte by byte, through gaps and tokens alike.
What it uses up for a token is a gap and the text of that token, so the tokens of
a source and the gaps in front of them make up the source, and each token is
located by all the text in front of its own.
-/

namespace OpcodeCatalog.Source

/-- The place behind a text.  Its line is told by the newlines in the text, its column by the
bytes behind the last of them. -/
structure LocatedBehind (file : UInt32) (text : Bytes) (place : Location) : Prop where
  file : place.file = file
  line : place.line.toNat = 1 + text.count Ascii.newline
  column : place.column.toNat = 1 + (text.rtakeWhile (· ≠ Ascii.newline)).length

namespace Position

theorem toNat_add_one {count : UInt32} {bound : Nat} (small : count.toNat ≤ bound)
    (short : bound < 2 ^ 32 - 1) : (count + 1).toNat = count.toNat + 1 := by
  rw [UInt32.toNat_add]
  apply Nat.mod_eq_of_lt
  have one : (1 : UInt32).toNat = 1 := rfl
  omega

/-- The counts of a position are those of the text in front of it, as long as they fit.  The
induction is on the text from its end, where the scanner counts one byte more. -/
theorem behind_counts {text : Bytes} (short : text.length < 2 ^ 32 - 1) :
    (behind {} text).line.toNat = 1 + text.count Ascii.newline ∧
      (behind {} text).column.toNat =
        1 + (text.rtakeWhile (· ≠ Ascii.newline)).length := by
  induction text using List.reverseRecOn with
  | nil => exact ⟨rfl, rfl⟩
  | append_singleton text byte induction =>
      rw [List.length_append, List.length_singleton] at short
      obtain ⟨line, column⟩ := induction (by omega)
      have lines := @List.count_le_length _ _ Ascii.newline text
      have columns := (List.rtakeWhile_suffix (· ≠ Ascii.newline) text).length_le
      have step : behind {} (text ++ [byte]) = (behind {} text).next byte := by
        rw [behind_append]
        rfl
      rw [step, next, List.count_append, List.rtakeWhile_concat]
      by_cases newline : byte = Ascii.newline
      · subst newline
        simp only [if_true, toNat_add_one (Nat.le_of_eq line) (by omega), line]
        constructor
        · simp [Nat.add_assoc]
        · simp
      · simp only [if_neg newline, toNat_add_one (Nat.le_of_eq column) (by omega), line, column]
        simp [newline, Nat.add_assoc]

end Position

/-- What a scanner uses up for one token: a gap, and the text of the token behind it. -/
structure Tile where
  gap : Bytes
  text : Bytes
  token : Token

namespace Tile

def bytes (tile : Tile) : Bytes :=
  tile.gap ++ tile.text

/-- The gap means nothing, and the text is that of the token alone. -/
structure Fits (tile : Tile) : Prop where
  gap : GapText tile.gap
  text : lexed tile.text = ⟨[⟨tile.token.lexeme, 0, tile.text.length⟩], none⟩

end Tile

/-- Tiles laid behind a text, with each token located where its own text begins. -/
inductive Tiled (file : UInt32) : Bytes → List Tile → Prop where
  | nil {before : Bytes} : Tiled file before []
  | cons {before : Bytes} {tile : Tile} {tiles : List Tile} :
      tile.Fits →
      LocatedBehind file (before ++ tile.gap) tile.token.location →
      Tiled file (before ++ tile.bytes) tiles →
      Tiled file before (tile :: tiles)

/-- The bytes of a lexeme are read as that lexeme where they stand alone. -/
theorem exists_text_of_front {text : Bytes} {found : Lexeme} {gap width : Nat}
    (read : front text = .lexeme found gap width) :
    ∃ alone, text = text.take gap ++ alone ++ text.drop (gap + width) ∧
      GapText (text.take gap) ∧ lexed alone = ⟨[⟨found, 0, alone.length⟩], none⟩ := by
  obtain ⟨skipped, first, rest, behind, scanned⟩ := front_eq_lexeme_iff.mp read
  obtain ⟨used, later, rfl, rfl, again⟩ := (lexeme_eq_ok_iff.mp scanned).split
  have length : (first :: used).length = 1 + used.length := Nat.add_comm _ 1
  refine ⟨first :: used, ?_, ?_, ?_⟩
  · rw [← List.drop_drop, behind, ← length, ← List.cons_append, List.drop_left,
      List.append_assoc, List.cons_append, ← behind, List.take_append_drop]
  · exact gapText_take skipped behind
  · have alone := again [] (.inr delimited_nil)
    rw [List.append_nil] at alone
    have nothingElse : (first :: used).drop (0 + (1 + used.length)) = [] := by
      rw [Nat.zero_add, ← length, List.drop_length]
    rw [lexed_of_lexeme alone.front_eq, nothingElse, lexed_of_finished front_nil, length]
    rfl

namespace Scanner

/-- The tokens that a scanner hands out one after the other, and the scanner behind them. -/
inductive HandsOut : Scanner → List Token → Scanner → Prop where
  | nil {scanner : Scanner} : HandsOut scanner [] scanner
  | cons {scanner middle last : Scanner} {token : Token} {tokens : List Token} :
      scanner.next = (.token token, middle) →
      HandsOut middle tokens last →
      HandsOut scanner (token :: tokens) last

/-- The scanner has counted exactly the bytes of a text, and no fault was in them. -/
structure StandsBehind (scanner : Scanner) (file : UInt32) (before : Bytes) : Prop where
  file : scanner.file = file
  position : scanner.position = Position.behind {} before
  sound : scanner.failed = false

namespace StandsBehind

variable {scanner after : Scanner} {file : UInt32} {before : Bytes}

theorem ofSource (file : UInt32) (source : Bytes) :
    (Scanner.ofSource file source).StandsBehind file [] where
  file := rfl
  position := rfl
  sound := rfl

theorem skip (stands : scanner.StandsBehind file before) (width : Nat) :
    (scanner.skip width).StandsBehind file (before ++ scanner.rest.take width) where
  file := stands.file
  position := by
    rw [Position.behind_append, ← stands.position]
    rfl
  sound := stands.sound

theorem located (stands : scanner.StandsBehind file before)
    (short : before.length < 2 ^ 32 - 1) : LocatedBehind file before scanner.location := by
  obtain ⟨line, column⟩ := Position.behind_counts short
  rw [← stands.position] at line column
  exact ⟨stands.file, line, column⟩

/-- One token: what is used up for it is a tile, and the scanner stands behind that tile. -/
theorem token {token : Token} (stands : scanner.StandsBehind file before)
    (short : (before ++ scanner.rest).length < 2 ^ 32 - 1)
    (read : scanner.next = (.token token, after)) :
    ∃ tile : Tile, tile.token = token ∧ scanner.rest = tile.bytes ++ after.rest ∧ tile.Fits ∧
      LocatedBehind file (before ++ tile.gap) token.location ∧
        after.StandsBehind file (before ++ tile.bytes) := by
  obtain ⟨lexeme, gap, width, found, rfl, rfl⟩ := exists_lexeme_of_next stands.sound read
  obtain ⟨text, split, gapText, alone⟩ := exists_text_of_front found
  have used : scanner.rest.take (gap + width) = scanner.rest.take gap ++ text := by
    have whole := List.take_append_drop (gap + width) scanner.rest
    exact List.append_cancel_right (whole.trans split)
  have standsBehind := stands.skip (gap + width)
  rw [used] at standsBehind
  refine ⟨⟨scanner.rest.take gap, text, _⟩, rfl, split, ⟨gapText, alone⟩, ?_, standsBehind⟩
  apply (stands.skip gap).located
  have shorter := List.length_take_le' gap scanner.rest
  rw [List.length_append] at short ⊢
  omega

/-- The end of the source: only a gap is left, and the scanner stays behind it. -/
theorem ending {place : Location} (stands : scanner.StandsBehind file before)
    (short : (before ++ scanner.rest).length < 2 ^ 32 - 1)
    (read : scanner.next = (.ending ⟨none, place⟩, after)) :
    LastGapText scanner.rest ∧ LocatedBehind file (before ++ scanner.rest) place ∧
      after.next = (.ending ⟨none, place⟩, after) := by
  cases found : front scanner.rest with
  | fault fault =>
      obtain ⟨_, _, ended⟩ := next_of_fault stands.sound found
      rw [ended] at read
      cases read
  | lexeme lexeme gap width =>
      rw [next_of_lexeme stands.sound found] at read
      cases read
  | finished =>
      obtain ⟨gap, skipped, empty⟩ := front_eq_finished_iff.mp found
      have whole := List.take_append_drop gap scanner.rest
      rw [empty, List.append_nil] at whole
      rw [next_of_empty_behind stands.sound skipped empty] at read
      cases read
      have last := (passedOver_of_width skipped).last
      have standsBehind := stands.skip gap
      rw [whole] at last standsBehind
      have nothing : (scanner.skip gap).rest = [] := empty
      have noGap : Gap.width (scanner.skip gap).rest = some 0 := by
        rw [nothing, Gap.width]
      exact ⟨last, standsBehind.located short,
        next_of_empty_behind standsBehind.sound noGap nothing⟩

end StandsBehind

/-- The induction is on the tokens handed out, each of which lays one tile more. -/
theorem HandsOut.tiled {scanner last : Scanner} {tokens : List Token} {file : UInt32}
    {before : Bytes} (handed : scanner.HandsOut tokens last)
    (stands : scanner.StandsBehind file before)
    (short : (before ++ scanner.rest).length < 2 ^ 32 - 1) :
    ∃ tiles : List Tile, tokens = tiles.map Tile.token ∧
      scanner.rest = tiles.flatMap Tile.bytes ++ last.rest ∧ Tiled file before tiles ∧
        last.StandsBehind file (before ++ tiles.flatMap Tile.bytes) := by
  induction handed generalizing before with
  | nil => exact ⟨[], rfl, rfl, .nil, by simpa using stands⟩
  | cons read _ induction =>
      obtain ⟨tile, rfl, split, fits, located, standsBehind⟩ := stands.token short read
      rw [split, ← List.append_assoc] at short
      obtain ⟨tiles, rfl, splitLater, tiled, standsLast⟩ := induction standsBehind short
      refine ⟨tile :: tiles, rfl, ?_, .cons fits located tiled, ?_⟩
      · rw [split, splitLater, List.flatMap_cons, List.append_assoc]
      · rwa [List.flatMap_cons, ← List.append_assoc]

/-- A whole run asks for one token after the other, up to an ending. -/
theorem handsOut_run (scanner : Scanner) :
    ∃ last after, scanner.HandsOut scanner.run.1.tokens last ∧
      last.next = (.ending scanner.run.1.ending, after) := by
  induction scanner using Scanner.run.induct with
  | case1 scanner ending after read =>
      rw [run_of_ending read]
      exact ⟨scanner, after, .nil, read⟩
  | case2 scanner token after read _ _ _ induction =>
      obtain ⟨last, atEnd, handed, ended⟩ := induction
      rw [run_of_token read]
      exact ⟨last, atEnd, .cons read handed, ended⟩

/-- The tokens of a source, and the gaps in front of them, make up the source as far as the
scanner has come.  Each token is located by the bytes in front of its own, and the end of the
source, told as often as one asks for it, by all of them. -/
theorem tokens_tile_source {file : UInt32} {source : Bytes} {tokens : List Token}
    {last : Scanner} (short : source.length < 2 ^ 32 - 1)
    (handed : (ofSource file source).HandsOut tokens last) :
    ∃ tiles : List Tile, tokens = tiles.map Tile.token ∧
      source = tiles.flatMap Tile.bytes ++ last.rest ∧ Tiled file [] tiles ∧
        ∀ place after, last.next = (.ending ⟨none, place⟩, after) →
          LastGapText last.rest ∧ LocatedBehind file source place ∧
            after.next = (.ending ⟨none, place⟩, after) := by
  obtain ⟨tiles, same, split, tiled, stands⟩ := handed.tiled (.ofSource file source) short
  refine ⟨tiles, same, split, tiled, ?_⟩
  intro place after ended
  rw [List.nil_append] at stands
  have whole : tiles.flatMap Tile.bytes ++ last.rest = source := split.symm
  have atEnd := stands.ending (by rwa [whole]) ended
  rwa [whole] at atEnd

/-- A string over two lines, and comments up to the end of the source. -/
theorem tokens_tile_source_of_twoLines :
    let source := ascii "(\"a\nb\" // c\n  x /* d */ // e"
    let tokens : List Token :=
      [⟨.mark .leftParen, ⟨7, 1, 1⟩⟩, ⟨.string (ascii "a\nb"), ⟨7, 1, 2⟩⟩,
        ⟨.identifier (ascii "x"), ⟨7, 3, 3⟩⟩]
    source.length < 2 ^ 32 - 1 ∧
      ∃ last, (ofSource 7 source).HandsOut tokens last ∧
        ∃ tiles : List Tile, tokens = tiles.map Tile.token ∧
          source = tiles.flatMap Tile.bytes ++ last.rest ∧ Tiled 7 [] tiles ∧
            ∀ place after, last.next = (.ending ⟨none, place⟩, after) →
              LastGapText last.rest ∧ LocatedBehind 7 source place ∧
                after.next = (.ending ⟨none, place⟩, after) := by
  intro source tokens
  have short : source.length < 2 ^ 32 - 1 := by decide +kernel
  have scanned : (ofSource 7 source).run.1.tokens = tokens := by decide +kernel
  obtain ⟨last, _, handed, _⟩ := handsOut_run (ofSource 7 source)
  rw [scanned] at handed
  exact ⟨short, last, handed, tokens_tile_source short handed⟩

end Scanner

end OpcodeCatalog.Source

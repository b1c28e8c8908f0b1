import OpcodeCatalog.Proofs.IntegerLiterals
import OpcodeCatalog.Proofs.SelfDelimiting
import OpcodeCatalog.Source.Scanner
import Mathlib.Data.List.TakeWhile

/-!
# The bytes of a lexeme

Which lexeme stands at the front of a text depends on the bytes that it takes up
and on the one behind them.  Where a text is cut off within a lexeme, a fault is
left, or a lexeme that takes up all that is left and is not a mark.
-/

namespace OpcodeCatalog

theorem Ascii.opensWord_of_isDigit {byte : UInt8} (digit : Ascii.isDigit byte = true) :
    Ascii.opensWord byte = false := by
  obtain ⟨_, most⟩ := Bool.and_eq_true_iff.mp digit
  have small : byte.toNat ≤ 57 := UInt8.le_iff_toNat_le.mp (of_decide_eq_true most)
  have notLower : Ascii.isLower byte = false := by
    apply Bool.and_eq_false_imp.mpr
    intro least
    have large : 97 ≤ byte.toNat := UInt8.le_iff_toNat_le.mp (of_decide_eq_true least)
    omega
  have notUpper : Ascii.isUpper byte = false := by
    apply Bool.and_eq_false_imp.mpr
    intro least
    have large : 65 ≤ byte.toNat := UInt8.le_iff_toNat_le.mp (of_decide_eq_true least)
    omega
  have notUnderscore : byte ≠ Ascii.underscore := by
    intro same
    subst same
    cases digit
  simp [Ascii.opensWord, notLower, notUpper, notUnderscore]

namespace Source

theorem Mark.ofByte?_eq_some_iff {byte : UInt8} {mark : Mark} :
    Mark.ofByte? byte = some mark ↔ byte = mark.byte := by
  constructor
  · intro found
    have matched := List.find?_some found
    exact (beq_iff_eq.mp matched).symm
  · intro same
    subst same
    cases mark <;> rfl

/-- The byte of a mark opens no lexeme of another sort. -/
theorem Mark.opens_nothing_else (mark : Mark) :
    mark.byte ≠ Ascii.quote ∧ Ascii.opensWord mark.byte = false ∧
      Ascii.isDigit mark.byte = false ∧ Number.isSign mark.byte = false := by
  cases mark <;> decide

theorem RawString.opens_iff {first : UInt8} {rest : Bytes} :
    RawString.opens (first :: rest) = true ↔ first = 'r'.toUInt8 ∧
      (rest.head? = some Ascii.quote ∨ rest.head? = some Ascii.hash) := by
  cases rest with
  | nil => simp [RawString.opens]
  | cons second rest => simp [RawString.opens]

theorem Number.opens_iff {first : UInt8} {rest : Bytes} :
    Number.opens (first :: rest) = true ↔ Ascii.isDigit first = true ∨
      Number.isSign first = true ∧ ∃ next, rest.head? = some next ∧ Ascii.isDigit next = true := by
  simp [Number.opens, Option.any_eq_true]

theorem Mark.ofByte?_eq_none {byte : UInt8} (other : ∀ mark : Mark, byte ≠ mark.byte) :
    Mark.ofByte? byte = none := by
  cases found : Mark.ofByte? byte with
  | none => rfl
  | some mark => exact (other mark (Mark.ofByte?_eq_some_iff.mp found)).elim

theorem Number.first_of_opens {first : UInt8} {rest : Bytes}
    (opens : Number.opens (first :: rest) = true) :
    first ≠ Ascii.quote ∧ Ascii.opensWord first = false ∧ ∀ mark : Mark, first ≠ mark.byte := by
  rcases Number.opens_iff.mp opens with digit | ⟨signed, _⟩
  · refine ⟨?_, Ascii.opensWord_of_isDigit digit, ?_⟩
    · intro same
      subst same
      cases digit
    · intro mark same
      have noDigit := mark.opens_nothing_else.2.2.1
      rw [same, noDigit] at digit
      cases digit
  · rcases Bool.or_eq_true_iff.mp signed with minus | plus
    · rw [beq_iff_eq.mp minus]
      refine ⟨by decide, by decide, ?_⟩
      intro mark
      cases mark <;> decide
    · rw [beq_iff_eq.mp plus]
      refine ⟨by decide, by decide, ?_⟩
      intro mark
      cases mark <;> decide

theorem lexeme_mark (mark : Mark) (rest : Bytes) :
    lexeme mark.byte rest = ⟨.ok (.mark mark), 1⟩ := by
  unfold lexeme
  rw [Mark.ofByte?_eq_some_iff.mpr rfl]

theorem lexeme_quoted (rest : Bytes) :
    lexeme Ascii.quote rest = ((Quoted.scan rest).map (·.map Lexeme.string)).after 1 := by
  unfold lexeme
  simp only [show Mark.ofByte? Ascii.quote = none from rfl, if_true]

theorem lexeme_raw {first : UInt8} {rest : Bytes}
    (opens : RawString.opens (first :: rest) = true) :
    lexeme first rest = ((RawString.scan rest).map (·.map Lexeme.string)).after 1 := by
  obtain ⟨rfl, _⟩ := RawString.opens_iff.mp opens
  unfold lexeme
  simp only [show Mark.ofByte? 'r'.toUInt8 = none from rfl,
    show 'r'.toUInt8 ≠ Ascii.quote by decide, if_false, opens, if_true]

theorem lexeme_word {first : UInt8} {rest : Bytes} (opensWord : Ascii.opensWord first = true)
    (notRaw : RawString.opens (first :: rest) = false) :
    lexeme first rest = ⟨.ok (.identifier (first :: rest.takeWhile Ascii.continuesWord)),
      1 + (rest.takeWhile Ascii.continuesWord).length⟩ := by
  have noMark : Mark.ofByte? first = none := by
    apply Mark.ofByte?_eq_none
    intro mark same
    have opensNoWord := mark.opens_nothing_else.2.1
    rw [← same, opensWord] at opensNoWord
    cases opensNoWord
  have notQuote : first ≠ Ascii.quote := by
    intro same
    subst same
    cases opensWord
  simp [lexeme, noMark, notQuote, notRaw, opensWord]

theorem lexeme_number {first : UInt8} {rest : Bytes}
    (opens : Number.opens (first :: rest) = true) :
    lexeme first rest = (Number.scan (first :: rest)).map (·.map Lexeme.integer) := by
  obtain ⟨notQuote, notWord, noMark⟩ := Number.first_of_opens opens
  have notRaw : RawString.opens (first :: rest) = false := by
    apply Bool.eq_false_iff.mpr
    intro raw
    obtain ⟨rfl, _⟩ := RawString.opens_iff.mp raw
    cases notWord
  unfold lexeme
  simp only [Mark.ofByte?_eq_none noMark, notQuote, notRaw, notWord, opens, if_true, if_false,
    Bool.false_eq_true]

/-- The lexeme that a text opens with, by the sort of its first byte. -/
inductive Scanned (first : UInt8) (rest : Bytes) : Lexeme → Nat → Prop where
  | mark {mark : Mark} : first = mark.byte → Scanned first rest (.mark mark) 1
  | quoted {text : Bytes} {width : Nat} :
      first = Ascii.quote →
      Scans Quoted.scan rest text width →
      Scanned first rest (.string text) (1 + width)
  | raw {text : Bytes} {width : Nat} :
      RawString.opens (first :: rest) = true →
      Scans RawString.scan rest text width →
      Scanned first rest (.string text) (1 + width)
  | word :
      Ascii.opensWord first = true →
      RawString.opens (first :: rest) = false →
      Scanned first rest (.identifier (first :: rest.takeWhile Ascii.continuesWord))
        (1 + (rest.takeWhile Ascii.continuesWord).length)
  | number {value : Int} {width : Nat} :
      Number.opens (first :: rest) = true →
      Scans Number.scan (first :: rest) value width →
      Scanned first rest (.integer value) width

theorem lexeme_eq_ok_iff {first : UInt8} {rest : Bytes} {found : Lexeme} {width : Nat} :
    lexeme first rest = ⟨.ok found, width⟩ ↔ Scanned first rest found width := by
  constructor
  · intro read
    unfold lexeme at read
    split at read
    · next mark marked =>
        cases read
        exact .mark (Mark.ofByte?_eq_some_iff.mp marked)
    · split at read
      · next quoted =>
          obtain ⟨_, _, inner, rfl, rfl⟩ := Span.after_map_eq_ok_iff.mp read
          exact .quoted quoted inner
      · split at read
        · next opens =>
            obtain ⟨_, _, inner, rfl, rfl⟩ := Span.after_map_eq_ok_iff.mp read
            exact .raw opens inner
        · next notRaw =>
            split at read
            · next opensWord =>
                cases read
                exact .word opensWord (Bool.eq_false_iff.mpr notRaw)
            · split at read
              · next opens =>
                  obtain ⟨_, inner, rfl⟩ := Span.map_eq_ok_iff.mp read
                  exact .number opens inner
              · cases read
  · intro scanned
    cases scanned with
    | mark same =>
        rw [same]
        exact lexeme_mark _ rest
    | quoted quote inner =>
        rw [quote, lexeme_quoted]
        exact Span.after_map_eq_ok_iff.mpr ⟨_, _, inner, rfl, rfl⟩
    | raw opens inner =>
        rw [lexeme_raw opens]
        exact Span.after_map_eq_ok_iff.mpr ⟨_, _, inner, rfl, rfl⟩
    | word opensWord notRaw => exact lexeme_word opensWord notRaw
    | number opens inner =>
        rw [lexeme_number opens]
        exact Span.map_eq_ok_iff.mpr ⟨_, inner, rfl⟩

/-- Bytes that end any word, number or raw string opener in front of them. -/
def delimits (byte : UInt8) : Bool :=
  !(Ascii.continuesWord byte || byte == '.'.toUInt8 || byte == Ascii.quote || byte == Ascii.hash)

def Delimited (text : Bytes) : Prop :=
  ∀ byte, text.head? = some byte → delimits byte = true

theorem delimited_nil : Delimited [] := by
  intro byte front
  cases front

theorem delimits_eq_true_iff {byte : UInt8} :
    delimits byte = true ↔ Ascii.continuesWord byte = false ∧ byte ≠ '.'.toUInt8 ∧
      byte ≠ Ascii.quote ∧ byte ≠ Ascii.hash := by
  simp [delimits, and_assoc]

theorem Delimited.apart {text : Bytes} (delimited : Delimited text) : Apart text := by
  intro byte front
  exact (delimits_eq_true_iff.mp (delimited byte front)).1

theorem Delimited.opens_eq_false {text : Bytes} (delimited : Delimited text) (first : UInt8) :
    RawString.opens (first :: text) = false := by
  apply Bool.eq_false_iff.mpr
  intro opens
  rcases (RawString.opens_iff.mp opens).2 with quote | hash
  · exact (delimits_eq_true_iff.mp (delimited _ quote)).2.2.1 rfl
  · exact (delimits_eq_true_iff.mp (delimited _ hash)).2.2.2 rfl

theorem Delimited.ends {text : Bytes} (delimited : Delimited text) (radix : Radix) :
    Number.Ends radix text := by
  intro byte front
  obtain ⟨apart, notDot, _⟩ := delimits_eq_true_iff.mp (delimited byte front)
  exact ⟨apart, fun _ => notDot⟩

/-- A literal is read before every text that delimits it. -/
theorem Number.judge_of_delimited {negative : Bool} {radix : Radix} {digits : List Nat}
    {rest other : Bytes} {value : Int}
    (judged : judge negative radix digits rest.head? = .ok value) (delimited : Delimited other) :
    judge negative radix digits other.head? = .ok value := by
  obtain ⟨some, _, _, inRange, valued⟩ := judge_eq_ok_iff.mp judged
  have ends := delimited.ends radix
  exact judge_eq_ok_iff.mpr ⟨some, ends.not_fraction, ends.filter_eq_none, inRange, valued⟩

/-- Behind a lexeme the rest of a text may be replaced by one that opens with the same byte,
or with one that delimits whatever stands in front of it. -/
def MayReplace (rest other : Bytes) : Prop :=
  other.head? = rest.head? ∨ Delimited other

theorem MayReplace.apart {rest other : Bytes} (replaces : MayReplace rest other)
    (apart : Apart rest) : Apart other := by
  rcases replaces with same | delimited
  · intro byte front
    exact apart byte (same.symm.trans front)
  · exact delimited.apart

/-- Behind a byte that stays, the rest has no say in the head of a text. -/
theorem head?_append_eq {used rest other : Bytes} (same : used = [] → other.head? = rest.head?) :
    (used ++ other).head? = (used ++ rest).head? := by
  cases used with
  | nil => exact same rfl
  | cons byte used => rfl

theorem RawString.opens_congr {first : UInt8} {text other : Bytes}
    (same : text.head? = other.head?) :
    RawString.opens (first :: text) = RawString.opens (first :: other) := by
  rw [Bool.eq_iff_iff, RawString.opens_iff, RawString.opens_iff, same]

namespace Scanned

variable {first : UInt8} {text : Bytes} {found : Lexeme} {width : Nat}

theorem split_raw {value : Bytes} (opens : RawString.opens (first :: text) = true)
    (inner : Scans RawString.scan text value width) :
    ∃ used rest, text = used ++ rest ∧ used.length = width ∧
      ∀ other, Scanned first (used ++ other) (.string value) (1 + width) := by
  obtain ⟨used, rest, rfl, length, again⟩ := RawString.scan_selfDelimiting inner
  refine ⟨used, rest, rfl, length, ?_⟩
  intro other
  have nonempty : used ≠ [] := by
    intro empty
    have readNothing := again []
    rw [empty] at readNothing
    cases readNothing
  have same : (used ++ other).head? = (used ++ rest).head? :=
    head?_append_eq fun empty => (nonempty empty).elim
  rw [RawString.opens_congr same.symm] at opens
  exact .raw opens (again other)

theorem split_word (opensWord : Ascii.opensWord first = true)
    (notRaw : RawString.opens (first :: text) = false) {other : Bytes}
    (replaces : MayReplace (text.dropWhile Ascii.continuesWord) other) :
    Scanned first (text.takeWhile Ascii.continuesWord ++ other)
      (.identifier (first :: text.takeWhile Ascii.continuesWord))
      (1 + (text.takeWhile Ascii.continuesWord).length) := by
  have apartRest : Apart (text.dropWhile Ascii.continuesWord) := by
    intro byte front
    have stops := List.head?_dropWhile_not Ascii.continuesWord text
    rw [front] at stops
    simpa using stops
  have apart := replaces.apart apartRest
  have ended : other.takeWhile Ascii.continuesWord = [] := by
    cases other with
    | nil => rfl
    | cons byte other => rw [List.takeWhile_cons_of_neg (by simp [apart byte rfl])]
  have same : (text.takeWhile Ascii.continuesWord ++ other).takeWhile Ascii.continuesWord =
      text.takeWhile Ascii.continuesWord := by
    rw [List.takeWhile_append_of_pos (List.all_eq_true.mp List.all_takeWhile), ended,
      List.append_nil]
  have stillNotRaw :
      RawString.opens (first :: (text.takeWhile Ascii.continuesWord ++ other)) = false := by
    rcases replaces with sameHead | delimited
    · rw [RawString.opens_congr (head?_append_eq fun _ => sameHead),
        List.takeWhile_append_dropWhile]
      exact notRaw
    · cases word : text.takeWhile Ascii.continuesWord with
      | nil => exact delimited.opens_eq_false first
      | cons second later =>
          have front : text.head? = some second := by
            rw [← @List.takeWhile_append_dropWhile _ Ascii.continuesWord text, word]
            rfl
          rw [← notRaw]
          exact RawString.opens_congr front.symm
  have scanned := Scanned.word opensWord stillNotRaw
  rwa [same] at scanned

theorem split_number {value : Int} (opens : Number.opens (first :: text) = true)
    (inner : Scans Number.scan (first :: text) value width) :
    ∃ used rest, text = used ++ rest ∧ width = 1 + used.length ∧
      ∀ other, MayReplace rest other → Scanned first (used ++ other) (.integer value) width := by
  obtain ⟨literal, rest, negative, radix, digits, split, rfl, shown, apart, judged⟩ :=
    Number.exists_literalText inner
  have positive := Number.width_scan_pos opens
  rw [inner] at positive
  cases literal with
  | nil => cases positive
  | cons byte used =>
      rw [List.cons_append] at split
      obtain ⟨rfl, rfl⟩ := List.cons.inj split
      refine ⟨used, rest, rfl, Nat.add_comm used.length 1, ?_⟩
      intro other replaces
      have opensAgain : Number.opens (first :: (used ++ other)) = true := by
        rcases Number.opens_iff.mp opens with digit | ⟨signed, next, front, digit⟩
        · exact Number.opens_iff.mpr (.inl digit)
        · -- The digit behind a sign belongs to the literal.
          have nonempty : used ≠ [] := by
            intro empty
            rw [empty] at front
            have breaks := apart next front
            simp [Ascii.continuesWord, digit] at breaks
          rw [← head?_append_eq fun empty => (nonempty empty).elim] at front
          exact Number.opens_iff.mpr (.inr ⟨signed, next, front, digit⟩)
      have judgedAgain : Number.judge negative radix digits other.head? = .ok value := by
        rcases replaces with same | delimited
        · rw [same]
          exact judged
        · exact Number.judge_of_delimited judged delimited
      have read := Number.scan_of_text shown (List.cons_ne_nil first used) (replaces.apart apart)
      rw [judgedAgain] at read
      exact .number opensAgain read

/-- A lexeme is read again wherever the rest behind it is replaced. -/
theorem split (scanned : Scanned first text found width) :
    ∃ used rest, text = used ++ rest ∧ width = 1 + used.length ∧
      ∀ other, MayReplace rest other → Scanned first (used ++ other) found width := by
  cases scanned with
  | mark same => exact ⟨[], text, rfl, rfl, fun other _ => .mark same⟩
  | quoted quote inner =>
      obtain ⟨used, rest, rfl, rfl, again⟩ := Quoted.scan_selfDelimiting inner
      exact ⟨used, rest, rfl, rfl, fun other _ => .quoted quote (again other)⟩
  | raw opens inner =>
      obtain ⟨used, rest, rfl, rfl, again⟩ := split_raw opens inner
      exact ⟨used, rest, rfl, rfl, fun other _ => again other⟩
  | word opensWord notRaw =>
      exact ⟨_, text.dropWhile Ascii.continuesWord, List.takeWhile_append_dropWhile.symm, rfl,
        fun other replaces => split_word opensWord notRaw replaces⟩
  | number opens inner => exact split_number opens inner

section Cuts

variable {cut leftWidth : Nat} {left : Lexeme}

theorem take_quoted {value : Bytes} (quote : first = Ascii.quote)
    (inner : Scans Quoted.scan text value width) (inside : cut < width) :
    lexeme first (text.take cut) ≠ ⟨.ok left, leftWidth⟩ := by
  intro read
  rw [quote, lexeme_quoted] at read
  obtain ⟨_, _, readInner, _⟩ := Span.after_map_eq_ok_iff.mp read
  exact Quoted.scan_selfDelimiting.not_reads_take Scans.unique inner inside readInner

theorem head?_take (some : cut ≠ 0) : (text.take cut).head? = text.head? := by
  rw [List.head?_take, if_neg some]

/-- Of a raw string nothing is left but its letter, which is a word. -/
theorem take_raw {value : Bytes} (opens : RawString.opens (first :: text) = true)
    (inner : Scans RawString.scan text value width) (inside : cut < width)
    (read : lexeme first (text.take cut) = ⟨.ok left, leftWidth⟩) :
    leftWidth = (text.take cut).length + 1 ∧ ∀ mark, left ≠ .mark mark := by
  by_cases none : cut = 0
  · subst none
    obtain ⟨rfl, _⟩ := RawString.opens_iff.mp opens
    have word : lexeme 'r'.toUInt8 [] = ⟨.ok (.identifier ['r'.toUInt8]), 1⟩ :=
      lexeme_word (by decide) rfl
    rw [List.take_zero, word] at read
    cases read
    exact ⟨rfl, fun _ => Lexeme.noConfusion⟩
  · have opensCut := (RawString.opens_congr (head?_take none)).trans opens
    rw [lexeme_raw opensCut] at read
    obtain ⟨_, _, readInner, _⟩ := Span.after_map_eq_ok_iff.mp read
    exact (RawString.scan_selfDelimiting.not_reads_take Scans.unique inner inside readInner).elim

theorem take_word (opensWord : Ascii.opensWord first = true)
    (notRaw : RawString.opens (first :: text) = false)
    (inside : cut < (text.takeWhile Ascii.continuesWord).length)
    (read : lexeme first (text.take cut) = ⟨.ok left, leftWidth⟩) :
    leftWidth = (text.take cut).length + 1 ∧ ∀ mark, left ≠ .mark mark := by
  have notRawCut : RawString.opens (first :: text.take cut) = false := by
    by_cases none : cut = 0
    · rw [none, List.take_zero]
      exact delimited_nil.opens_eq_false first
    · exact (RawString.opens_congr (head?_take none)).trans notRaw
  have inWord : text.take cut <+: text.takeWhile Ascii.continuesWord := by
    apply List.prefix_of_prefix_length_le (List.take_prefix cut text) (List.takeWhile_prefix _)
    rw [List.length_take]
    omega
  have whole : (text.take cut).takeWhile Ascii.continuesWord = text.take cut := by
    rw [List.takeWhile_eq_self_iff]
    intro byte member
    exact List.all_eq_true.mp List.all_takeWhile byte (inWord.subset member)
  rw [lexeme_word opensWord notRawCut, whole] at read
  cases read
  exact ⟨Nat.add_comm 1 _, fun _ => Lexeme.noConfusion⟩

/-- Where a number could begin but does not, no lexeme does: a sign is none by itself. -/
theorem lexeme_ne_ok_of_sign {other : Bytes} (opens : Number.opens (first :: text) = true)
    (opensNone : Number.opens (first :: other) = false) :
    lexeme first other ≠ ⟨.ok left, leftWidth⟩ := by
  intro read
  obtain ⟨notQuote, notWord, noMark⟩ := Number.first_of_opens opens
  cases lexeme_eq_ok_iff.mp read with
  | mark same => exact noMark _ same
  | quoted same => exact notQuote same
  | raw raw =>
      obtain ⟨rfl, _⟩ := RawString.opens_iff.mp raw
      cases notWord
  | word word =>
      rw [notWord] at word
      cases word
  | number number =>
      rw [opensNone] at number
      cases number

theorem take_number {value : Int} (opens : Number.opens (first :: text) = true)
    (inner : Scans Number.scan (first :: text) value width) (inside : cut + 1 < width)
    (read : lexeme first (text.take cut) = ⟨.ok left, leftWidth⟩) :
    leftWidth = (text.take cut).length + 1 ∧ ∀ mark, left ≠ .mark mark := by
  obtain ⟨literal, rest, negative, radix, digits, split, rfl, shown, _, _⟩ :=
    Number.exists_literalText inner
  obtain ⟨negative, radix, digits, shownCut⟩ := shown.take (cut + 1)
  have front : literal.take (cut + 1) = first :: text.take cut := by
    rw [← List.take_succ_cons, split, List.take_append_of_le_length (Nat.le_of_lt inside)]
  rw [front] at shownCut
  have scan := Number.scan_of_text shownCut (List.cons_ne_nil _ _) apart_nil
  rw [List.append_nil] at scan
  by_cases opensCut : Number.opens (first :: text.take cut) = true
  · rw [lexeme_number opensCut, scan] at read
    obtain ⟨_, same, rfl⟩ := Span.map_eq_ok_iff.mp read
    exact ⟨(congrArg Span.width same).symm, fun _ => Lexeme.noConfusion⟩
  · exact (lexeme_ne_ok_of_sign opens (Bool.eq_false_iff.mpr opensCut) read).elim

/-- What a cut within a lexeme leaves is a fault, or a lexeme that takes up all of it and
is not a mark. -/
theorem take (scanned : Scanned first text found width) (inside : cut + 1 < width)
    (read : lexeme first (text.take cut) = ⟨.ok left, leftWidth⟩) :
    leftWidth = (text.take cut).length + 1 ∧ ∀ mark, left ≠ .mark mark := by
  cases scanned with
  | mark same => omega
  | quoted quote inner => exact (take_quoted quote inner (by omega) read).elim
  | raw opens inner => exact take_raw opens inner (by omega) read
  | word opensWord notRaw => exact take_word opensWord notRaw (by omega) read
  | number opens inner => exact take_number opens inner inside read

end Cuts

end Scanned

end Source

end OpcodeCatalog

import OpcodeCatalog.Proofs.RoundTrip

/-!
# Truncated sources

A source that is cut off has the lexemes in front of the cut, and at most one
more, which the cut has changed and which is no mark.  A catalog closes with a
mark, and no catalog is the beginning of another one, so nothing that is cut off
before the last bracket of a catalog is a catalog.
-/

namespace OpcodeCatalog.Source

/-- What is at the front of a cut text, next to what is at the front of the whole one. -/
inductive CutFront (cut : Nat) : Front → Front → Prop where
  | fault {whole : Front} {reason : LexicalFault} : CutFront cut whole (.fault reason)
  | ended : CutFront cut .finished .finished
  | gone {found : Lexeme} {gap width : Nat} :
      cut ≤ gap → CutFront cut (.lexeme found gap width) .finished
  | short {found left : Lexeme} {gap width leftGap leftWidth : Nat} :
      cut < gap + width →
      cut ≤ leftGap + leftWidth →
      (∀ mark, left ≠ .mark mark) →
      CutFront cut (.lexeme found gap width) (.lexeme left leftGap leftWidth)
  | whole {found : Lexeme} {gap width : Nat} :
      gap + width ≤ cut →
      CutFront cut (.lexeme found gap width) (.lexeme found gap width)

namespace CutFront

variable {cut : Nat} {whole left : Front}

/-- Where nothing is left but the gap, the cut is in front of the lexeme. -/
theorem nothing (faultless : whole.Faultless) (early : cut ≤ before) :
    CutFront cut (whole.after before) .finished := by
  cases whole with
  | finished => exact .ended
  | fault reason => exact (faultless reason rfl).elim
  | lexeme found gap width => exact .gone (Nat.le_trans early (Nat.le_add_right before gap))

theorem after (cutFront : CutFront cut whole left) (before : Nat) :
    CutFront (before + cut) (whole.after before) (left.after before) := by
  cases cutFront with
  | fault => exact .fault
  | ended => exact .ended
  | gone early => exact .gone (Nat.add_le_add_left early before)
  | short early all noMark =>
      refine .short ?_ ?_ noMark
      · omega
      · omega
  | whole late =>
      refine .whole ?_
      omega

end CutFront

namespace Gap

theorem restOfLine_take (text : Bytes) (count : Nat) :
    restOfLine (text.take count) = min count (restOfLine text) := by
  unfold restOfLine
  induction text generalizing count with
  | nil => simp
  | cons byte text induction =>
      cases count with
      | zero => simp
      | succ count =>
          rw [List.take_succ_cons, List.takeWhile_cons, List.takeWhile_cons]
          split
          · rw [List.length_cons, List.length_cons, induction, Nat.add_min_add_right]
          · simp

theorem Closes.unique {depth : Nat} ⦃text : Bytes⦄ ⦃value value' : Unit⦄ ⦃width width' : Nat⦄
    (read : Closes depth text value width) (read' : Closes depth text value' width') :
    width = width' :=
  Option.some.inj (read.symm.trans read')

variable {text : Bytes} {comment cut : Nat}

theorem blockComment_take_of_lt (closed : blockComment 1 text = some comment)
    (inside : cut < comment) : blockComment 1 (text.take cut) = none := by
  have closes : Closes 1 text () comment := closed
  cases readCut : blockComment 1 (text.take cut) with
  | none => rfl
  | some width =>
      have closesCut : Closes 1 (text.take cut) () width := readCut
      exact ((blockComment_selfDelimiting 1).not_reads_take Closes.unique closes inside
        closesCut).elim

theorem blockComment_take_of_le (closed : blockComment 1 text = some comment)
    (behind : comment ≤ cut) : blockComment 1 (text.take cut) = some comment := by
  have closes : Closes 1 text () comment := closed
  obtain ⟨used, rest, rfl, rfl, again⟩ := blockComment_selfDelimiting 1 closes
  have left : (used ++ rest).take cut = used ++ rest.take (cut - used.length) := by
    rw [List.take_append, List.take_of_length_le behind]
  rw [left]
  exact again _

end Gap

/-- A cut behind a lexeme leaves it as it is. -/
theorem Scanned.take_of_le {first : UInt8} {text : Bytes} {found : Lexeme} {width cut : Nat}
    (scanned : Scanned first text found width) (behind : width ≤ cut + 1) :
    Scanned first (text.take cut) found width := by
  obtain ⟨used, rest, rfl, rfl, again⟩ := scanned.split
  have covered : used.length ≤ cut := by omega
  rw [List.take_append, List.take_of_length_le covered]
  apply again
  by_cases none : cut - used.length = 0
  · right
    rw [none, List.take_zero]
    exact delimited_nil
  · left
    rw [List.head?_take, if_neg none]

theorem cutFront_lexeme {first : UInt8} {rest : Bytes}
    (faultless : (Front.ofSpan (lexeme first rest)).Faultless) (cut : Nat) :
    CutFront (cut + 1) (.ofSpan (lexeme first rest)) (.ofSpan (lexeme first (rest.take cut))) := by
  generalize whole : lexeme first rest = span at faultless ⊢
  obtain ⟨read, width⟩ := span
  cases read with
  | error reason => exact (faultless reason rfl).elim
  | ok found =>
      have scanned := lexeme_eq_ok_iff.mp whole
      by_cases behind : width ≤ cut + 1
      · have scannedCut := lexeme_eq_ok_iff.mpr (scanned.take_of_le behind)
        rw [scannedCut]
        apply CutFront.whole
        rw [Nat.zero_add]
        exact behind
      · generalize left : lexeme first (rest.take cut) = spanCut
        obtain ⟨readCut, widthCut⟩ := spanCut
        cases readCut with
        | error reason => exact .fault
        | ok foundCut =>
            obtain ⟨all, noMark⟩ := scanned.take (Nat.lt_of_not_le behind) left
            have long : cut ≤ rest.length := by
              obtain ⟨used, behindLexeme, rfl, rfl, _⟩ := scanned.split
              rw [List.length_append]
              omega
            rw [List.length_take, Nat.min_eq_left long] at all
            have within := Nat.lt_of_not_le behind
            apply CutFront.short _ _ noMark
            · rw [Nat.zero_add]
              exact within
            · rw [Nat.zero_add]
              exact Nat.le_of_eq all.symm

theorem front_slash : front [Ascii.slash] = .fault (.unexpectedByte Ascii.slash) :=
  front_ofSpan Gap.width_slash

/-- A cut inside the first two bytes of a comment leaves no lexeme, so only cuts behind
them matter. -/
theorem cutFront_comment {second : UInt8} {inside : Bytes} {whole : Front} {comment : Nat}
    (faultless : whole.Faultless)
    (behind : ∀ cut, CutFront (cut + 2) (whole.after (2 + comment))
      (front (Ascii.slash :: second :: inside.take cut)))
    (cut : Nat) :
    CutFront cut (whole.after (2 + comment))
      (front ((Ascii.slash :: second :: inside).take cut)) := by
  cases cut with
  | zero =>
      rw [List.take_zero, front_nil]
      exact .nothing faultless (Nat.zero_le _)
  | succ cut =>
      rw [List.take_succ_cons]
      cases cut with
      | zero =>
          rw [List.take_zero, front_slash]
          exact .fault
      | succ cut =>
          rw [List.take_succ_cons]
          exact behind cut

/-- What a cut leaves at the front of a text without a fault there.  The induction is on
the gaps with which the text begins. -/
theorem front_take {text : Bytes} (faultless : (front text).Faultless) (cut : Nat) :
    CutFront cut (front text) (front (text.take cut)) := by
  have opening := Gap.opening text
  induction opening generalizing cut with
  | nothing =>
      rw [List.take_nil, front_nil]
      exact .ended
  | blank blank _ induction =>
      rw [front_blank blank] at faultless ⊢
      have faultless := faultless.of_after
      cases cut with
      | zero =>
          rw [List.take_zero, front_nil]
          exact .nothing faultless (Nat.zero_le 1)
      | succ cut =>
          rw [List.take_succ_cons, front_blank blank, Nat.add_comm cut 1]
          exact (induction faultless cut).after 1
  | @line inside _ induction =>
      rw [front_line] at faultless ⊢
      have faultless := faultless.of_after
      apply cutFront_comment faultless
      intro cut
      rw [front_line, Gap.restOfLine_take]
      by_cases behind : Gap.restOfLine inside ≤ cut
      · have split : cut + 2 = 2 + Gap.restOfLine inside + (cut - Gap.restOfLine inside) := by
          omega
        rw [Nat.min_eq_right behind, List.drop_take, split]
        exact (induction faultless _).after _
      · have within := Nat.le_of_not_le behind
        rw [Nat.min_eq_left within, List.drop_eq_nil_of_le (List.length_take_le _ _), front_nil]
        apply CutFront.nothing faultless
        omega
  | @block inside comment closed _ induction =>
      rw [front_block closed] at faultless ⊢
      have faultless := faultless.of_after
      apply cutFront_comment faultless
      intro cut
      by_cases behind : comment ≤ cut
      · have split : cut + 2 = 2 + comment + (cut - comment) := by
          omega
        rw [front_block (Gap.blockComment_take_of_le closed behind), List.drop_take, split]
        exact (induction faultless _).after _
      · have within := Nat.lt_of_not_le behind
        rw [front_unterminated (Gap.blockComment_take_of_lt closed within)]
        exact .fault
  | unterminated unclosed =>
      rw [front_unterminated unclosed] at faultless
      exact (faultless _ rfl).elim
  | slash noGap => exact (not_faultless_slash noGap faultless).elim
  | other notBlank notSlash =>
      have noGap := Gap.width_other notBlank notSlash
      rw [front_ofSpan (noGap _)] at faultless ⊢
      cases cut with
      | zero =>
          rw [List.take_zero, front_nil]
          rw [← Front.after_zero (.ofSpan _)]
          exact .nothing faultless (Nat.zero_le 0)
      | succ cut =>
          rw [List.take_succ_cons, front_ofSpan (noGap _)]
          exact cutFront_lexeme faultless cut

/-- What a cut leaves of the lexemes of a text: those in front of it, and further ones of
which none is a mark. -/
def CutLexemes (cut : Nat) (whole left : List Placed) : Prop :=
  ∃ kept dropped extra, whole = kept ++ dropped ∧ left = kept ++ extra ∧
    (∀ placed ∈ kept, placed.start + placed.width ≤ cut) ∧
    ∀ placed ∈ extra, ∀ mark, placed.lexeme ≠ .mark mark

namespace CutLexemes

variable {cut : Nat} {whole left : List Placed}

theorem gone : CutLexemes cut whole [] :=
  ⟨[], whole, [], rfl, rfl, by simp, by simp⟩

theorem changed {placed : Placed} (noMark : ∀ mark, placed.lexeme ≠ .mark mark) :
    CutLexemes cut whole [placed] := by
  refine ⟨[], whole, [placed], rfl, rfl, by simp, ?_⟩
  intro other member
  rw [List.mem_singleton.mp member]
  exact noMark

/-- A lexeme in front of the cut stays, and the later ones are cut further to the front. -/
theorem behind {first : Placed} (later : CutLexemes (cut - (first.start + first.width)) whole left)
    (early : first.start + first.width ≤ cut) :
    CutLexemes cut (first :: whole.map (Placed.after (first.start + first.width)))
      (first :: left.map (Placed.after (first.start + first.width))) := by
  obtain ⟨kept, dropped, extra, rfl, rfl, keptEarly, noMark⟩ := later
  rw [List.map_append, List.map_append]
  refine ⟨first :: kept.map (Placed.after _), _, _, rfl, rfl, ?_, ?_⟩
  · intro placed member
    rcases List.mem_cons.mp member with rfl | member
    · exact early
    · obtain ⟨inner, innerMember, rfl⟩ := List.mem_map.mp member
      have bound := keptEarly inner innerMember
      rw [Placed.start_after, Placed.width_after]
      omega
  · intro placed member
    obtain ⟨inner, innerMember, rfl⟩ := List.mem_map.mp member
    exact noMark inner innerMember

end CutLexemes

/-- Neither the text nor what the cut leaves of it has a fault. -/
theorem lexed_take {text : Bytes} {cut : Nat} (faultless : (lexed text).fault = none)
    (faultlessCut : (lexed (text.take cut)).fault = none) :
    CutLexemes cut (lexed text).placed (lexed (text.take cut)).placed := by
  induction text using lexed.induct generalizing cut with
  | case1 text read =>
      have cutFront := front_take (front_faultless faultless) cut
      rw [read] at cutFront
      cases left : front (text.take cut) with
      | finished =>
          rw [lexed_of_finished left]
          exact .gone
      | fault reason => exact (front_faultless faultlessCut reason left).elim
      | lexeme found gap width =>
          rw [left] at cutFront
          cases cutFront
  | case2 text reason read =>
      exact (front_faultless faultless reason read).elim
  | case3 text found gap width read induction =>
      have cutFront := front_take (front_faultless faultless) cut
      rw [read] at cutFront
      generalize left : front (text.take cut) = frontCut at cutFront
      cases cutFront with
      | fault => exact (front_faultless faultlessCut _ left).elim
      | gone early =>
          rw [lexed_of_finished left]
          exact .gone
      | @short _ leftFound _ _ leftGap leftWidth _ all noMark =>
          have empty : (text.take cut).drop (leftGap + leftWidth) = [] := by
            apply List.drop_eq_nil_of_le
            exact Nat.le_trans (List.length_take_le _ _) all
          rw [lexed_of_lexeme left, empty, lexed_of_finished front_nil]
          exact .changed noMark
      | whole early =>
          rw [lexed_of_lexeme read] at faultless ⊢
          rw [lexed_of_lexeme left] at faultlessCut ⊢
          rw [List.drop_take] at faultlessCut ⊢
          exact (induction faultless faultlessCut).behind early

/-- The last lexeme of a catalog is the bracket that closes it. -/
theorem catalogText_getLast? {instructions : List Instruction} {shown : List Lexeme}
    (text : Grammar.CatalogText instructions shown) :
    shown.getLast? = some (.mark .rightParen) := by
  cases text with
  | declared _ _ struct =>
      cases struct with
      | unnamed => simp [List.getLast?_cons, List.getLast?_append]
      | named => simp [List.getLast?_cons, List.getLast?_append]

/-- No catalog is left of one that is cut off before its last bracket. -/
theorem not_catalogText_take {source : Bytes} {instructions fewer : List Instruction}
    {before : List Placed} {last : Placed} {cut : Nat}
    (faultless : (lexed source).fault = none)
    (text : Grammar.CatalogText instructions (lexed source).lexemes)
    (split : (lexed source).placed = before ++ [last]) (early : cut ≤ last.start)
    (faultlessCut : (lexed (source.take cut)).fault = none) :
    ¬ Grammar.CatalogText fewer (lexed (source.take cut)).lexemes := by
  intro textCut
  obtain ⟨kept, dropped, extra, splitWhole, splitCut, keptEarly, noMark⟩ :=
    lexed_take faultless faultlessCut
  have noExtra : extra = [] := by
    rcases List.eq_nil_or_concat extra with empty | ⟨others, final, concat⟩
    · exact empty
    · have closed := catalogText_getLast? textCut
      rw [Lexed.lexemes, splitCut, concat] at closed
      simp only [List.concat_eq_append, List.map_append, List.map_cons, List.map_nil,
        ← List.append_assoc, List.getLast?_concat, Option.some.injEq] at closed
      exact (noMark final (by simp [concat]) .rightParen closed).elim
  have textKept : Grammar.CatalogText fewer (kept.map Placed.lexeme) := by
    rw [Lexed.lexemes, splitCut, noExtra, List.append_nil] at textCut
    exact textCut
  have textAll : Grammar.CatalogText instructions
      (kept.map Placed.lexeme ++ dropped.map Placed.lexeme) := by
    rw [Lexed.lexemes, splitWhole, List.map_append] at text
    exact text
  have noneDropped := List.map_eq_nil_iff.mp (catalogText_append textKept textAll)
  have member : last ∈ kept := by
    rw [noneDropped, List.append_nil, split] at splitWhole
    rw [← splitWhole]
    exact List.mem_append_right before List.mem_cons_self
  have positive : 0 < last.width := by
    apply width_pos_of_mem_lexed
    rw [splitWhole]
    exact List.mem_append_left dropped member
  have bound := keptEarly last member
  omega

/-- A catalog that is cut off anywhere in front of its last bracket, the lexeme that the
scanner hands out last, is refused as a malformed source. -/
theorem instructions_take_refused {file : UInt32} {source : Bytes}
    {instructions : List Instruction}
    (accepted : Source.instructions file source = .ok instructions) :
    ∃ last, (lexed source).placed.getLast? = some last ∧
      (TokenStream.ofSource file source).tokens.getLast? =
        some ⟨.mark .rightParen, ((Scanner.ofSource file source).skip last.start).location⟩ ∧
      ∀ cut ≤ last.start, ∃ refusal,
        Source.instructions file (source.take cut) = .error refusal ∧
          FindingKind.malformedSource.carriedBy refusal.diagnostic = true := by
  obtain ⟨faultless, text⟩ := instructions_eq_ok_iff_lexed.mp accepted
  have closed := catalogText_getLast? text
  rw [Lexed.lexemes, List.getLast?_map] at closed
  obtain ⟨last, final, isMark⟩ := Option.map_eq_some_iff.mp closed
  refine ⟨last, final, ?_, ?_⟩
  · have tokens := (@Scanner.run_eq_lexed (Scanner.ofSource file source) rfl).1
    unfold TokenStream.ofSource
    rw [tokens, List.getLast?_map]
    change Option.map _ (lexed source).placed.getLast? = _
    rw [final, Option.map_some, isMark]
  · intro cut early
    obtain ⟨before, split⟩ := List.getLast?_eq_some_iff.mp final
    cases outcome : Source.instructions file (source.take cut) with
    | error refusal => exact ⟨refusal, rfl, rfl⟩
    | ok fewer =>
        obtain ⟨faultlessCut, textCut⟩ := instructions_eq_ok_iff_lexed.mp outcome
        exact (not_catalogText_take faultless text split early faultlessCut textCut).elim

/-- Cuts through a comment, a number, a string with an escape and all that stands between them. -/
theorem instructions_take_refused_of_function :
    let source := ascii
      ("GameDB(/* one */functions:[(id:0x12,size:8,args:\"i\",name:\"a\\\"\\n\"," ++
        "codeBlock:End,namedValues:\x7b(0,-3):(0,\"idle\")\x7d)])")
    ∃ declared, Source.instructions 5 source = .ok declared ∧
      declared.map Instruction.id = [0x12] ∧
      ∀ cut < source.length, ∃ refusal,
        Source.instructions 5 (source.take cut) = .error refusal ∧
          FindingKind.malformedSource.carriedBy refusal.diagnostic = true := by
  intro source
  have read : ((Source.instructions 5 source).toOption.map fun declared =>
      declared.map Instruction.id) = some [0x12] := by decide +kernel
  cases accepted : Source.instructions 5 source with
  | error refusal =>
      rw [accepted] at read
      cases read
  | ok declared =>
      rw [accepted] at read
      obtain ⟨last, final, _, refused⟩ := instructions_take_refused accepted
      have start : (lexed source).placed.getLast?.map Placed.start = some (source.length - 1) := by
        decide +kernel
      rw [final, Option.map_some, Option.some.injEq] at start
      refine ⟨declared, rfl, Option.some.inj read, fun cut early => refused cut ?_⟩
      rw [start]
      exact Nat.le_sub_one_of_lt early

end OpcodeCatalog.Source

import OpcodeCatalog.Proofs.Acceptance
import OpcodeCatalog.Proofs.LookAhead
import OpcodeCatalog.Proofs.ValueTrees

/-!
# Values that are open

A value is read to its end wherever it stands: what follows has no say in it,
but for a round bracket behind a word and a fault that is fetched.  How deep
values may still nest can be told by a count of those that are open, taken up
when a value begins and put back when it ends.  Counting in this way comes to
what `skipValue` does, so the count is back where it was behind every value.
-/

namespace OpcodeCatalog.Source

open TokenStream

/-- The stream begins with the value, which is all that stands in front of `rest`: a word has
no round bracket behind it. -/
structure Grammar.Value.StandsBefore (value : Grammar.Value) (rest stream : TokenStream) :
    Prop where
  split : ∃ used, used.map Token.lexeme = value.lexemes ∧ stream = rest.behind used
  alone : ∀ word, value = .word word → rest.kind ≠ .mark .leftParen

theorem TokenStream.exists_behind_of_kind {mark : Mark} {stream : TokenStream}
    (ahead : stream.kind = .mark mark) :
    ∃ token rest, token.lexeme = .mark mark ∧ stream = TokenStream.behind [token] rest := by
  have front := kind_eq_mark_iff.mp ahead
  obtain ⟨tokens, ending⟩ := stream
  cases tokens with
  | nil => cases front
  | cons token tokens => exact ⟨token, ⟨tokens, ending⟩, Option.some.inj front, rfl⟩

namespace Reader

open Grammar

section Runs

variable {depth : Nat} {rest stream : TokenStream}

theorem skipValueWithin_run_behind {token : Token} {front : Lexeme} (shown : token.lexeme = front)
    (opens : front.opensValue = true) (rest : TokenStream) :
    (skipValueWithin (depth + 1)).1.run (rest.behind [token]) =
      rest.checked.bind fun rest =>
        (skipBehind (skipValueWithin depth).1 (skipValueWithin depth).2 front).run rest := by
  subst shown
  change (skipValueOver _ (skipValueWithin depth).2).run _ = _
  rw [skipValueOver, StateT.run_bind, LooksAhead.take_run_behind, if_pos opens]
  cases rest.checked <;> rfl

theorem ne_nil_of_closed {used : List Token} {items : List Lexeme} {close : Mark}
    (shown : used.map Token.lexeme = items ++ [.mark close]) : used ≠ [] := by
  rintro rfl
  simp at shown

/-- Items are read up to their closing bracket, whatever comes behind it. -/
theorem skipItems_run_behind {opening close : Mark} {used : List Token} {items : List Lexeme}
    (closes : opening.closing? = some close) (inside : SkippedItems (SkippedValue depth) items)
    (shown : used.map Token.lexeme = items ++ [.mark close]) (rest : TokenStream) :
    (skipItems (skipValueWithin depth).1 (skipValueWithin depth).2 close).run
      (rest.behind used) = rest.checked.map ((), ·) := by
  have reads := reads_skipItems (readsValues_skipValueWithin depth) (skipValueWithin depth).2 closes
  have alike := alike_skipItems (skipValueWithin depth).2 (@alike_skipValueWithin id depth) close
  exact reads.run_behind alike.looksAhead ⟨items, inside, shown⟩ (ne_nil_of_closed shown) rest

theorem skipBracketed_run_behind {opening close : Mark} {used : List Token} {items : List Lexeme}
    (closes : opening.closing? = some close) (inside : SkippedItems (SkippedValue depth) items)
    (shown : used.map Token.lexeme = .mark opening :: (items ++ [.mark close]))
    (rest : TokenStream) :
    (skipValueWithin (depth + 1)).1.run (rest.behind used) = rest.checked.map ((), ·) := by
  obtain ⟨token, used, rfl, front, shown⟩ := List.map_eq_cons_iff.mp shown
  have opens : (Lexeme.mark opening).opensValue = true := by
    rw [Lexeme.opensValue, closes, Option.isSome_some]
  have read := @skipValueWithin_run_behind depth _ _ front opens (rest.behind used)
  rw [checked_behind (ne_nil_of_closed shown), skipBehind, closes] at read
  exact read.trans (skipItems_run_behind closes inside shown rest)

theorem skipNamed_run_behind {name : Bytes} {used : List Token} {items : List Lexeme}
    (inside : SkippedItems (SkippedValue depth) items)
    (shown : used.map Token.lexeme =
      .identifier name :: .mark .leftParen :: (items ++ [.mark .rightParen]))
    (rest : TokenStream) :
    (skipValueWithin (depth + 1)).1.run (rest.behind used) = rest.checked.map ((), ·) := by
  obtain ⟨token, used, rfl, front, shown⟩ := List.map_eq_cons_iff.mp shown
  obtain ⟨paren, used, rfl, bracket, shown⟩ := List.map_eq_cons_iff.mp shown
  have bracketed : (takeMark? .leftParen).run ((rest.behind used).behind [paren]) =
      .ok (true, rest.behind used) := by
    rw [LooksAhead.takeMark?_run_behind, if_pos bracket, checked_behind (ne_nil_of_closed shown)]
    rfl
  have read := @skipValueWithin_run_behind depth _ _ front rfl ((rest.behind used).behind [paren])
  rw [checked_behind (List.cons_ne_nil _ _)] at read
  have closes : Mark.leftParen.closing? = some .rightParen := rfl
  have behind := skipItems_run_behind closes inside shown rest
  exact read.trans ((run_bind_of_ok bracketed).trans behind)

/-- A value is read to its end and not further.  A fault that is fetched there is told. -/
theorem skipValueWithin_run {value : Value} (stands : value.StandsBefore rest stream)
    (shallow : value.depth ≤ depth) :
    (skipValueWithin depth).1.run stream = rest.checked.map ((), ·) := by
  obtain ⟨inside, rfl⟩ := Nat.exists_eq_add_of_le' (Nat.le_trans value.depth_pos shallow)
  obtain ⟨⟨used, shown, rfl⟩, alone⟩ := stands
  cases value with
  | integer number =>
      obtain ⟨token, rfl, front⟩ := List.map_eq_singleton_iff.mp shown
      exact skipValueWithin_run_behind front rfl rest
  | string text =>
      obtain ⟨token, rfl, front⟩ := List.map_eq_singleton_iff.mp shown
      exact skipValueWithin_run_behind front rfl rest
  | word word =>
      obtain ⟨token, rfl, front⟩ := List.map_eq_singleton_iff.mp shown
      refine (skipValueWithin_run_behind front rfl rest).trans ?_
      cases checked : rest.checked with
      | error refusal => rfl
      | ok passed =>
          obtain ⟨rfl, readable⟩ := checked_eq_ok_iff.mp checked
          have absent := alone word rfl
          rw [Ne, kind_eq_mark_iff] at absent
          exact run_bind_of_ok (Reads.takeMark?_run_of_absent absent readable)
  | bracketed brackets items =>
      rw [Value.depth, Nat.add_comm] at shallow
      have skipped := items.skippedItems (Nat.le_of_succ_le_succ shallow)
      have closes := brackets.closing?_mark
      cases brackets with
      | round name =>
          cases name with
          | none => exact skipBracketed_run_behind closes skipped shown rest
          | some name => exact skipNamed_run_behind skipped shown rest
      | square => exact skipBracketed_run_behind closes skipped shown rest
      | curly => exact skipBracketed_run_behind closes skipped shown rest

/-- Behind a word a round bracket would have been read as well. -/
theorem kind_ne_leftParen_of_word {token : Token} {word : Bytes}
    (shown : token.lexeme = .identifier word)
    (read : (skipValueWithin (depth + 1)).1.run (rest.behind [token]) = .ok ((), rest)) :
    rest.kind ≠ .mark .leftParen := by
  intro ahead
  obtain ⟨paren, more, bracket, rfl⟩ := exists_behind_of_kind ahead
  rw [skipValueWithin_run_behind shown rfl, checked_behind (List.cons_ne_nil _ _)] at read
  obtain ⟨bracketed, between, took, behind⟩ := run_bind_eq_ok_iff.mp read
  rw [LooksAhead.takeMark?_run_behind, if_pos bracket] at took
  cases checked : more.checked with
  | error refusal =>
      rw [checked] at took
      cases took
  | ok passed =>
      obtain ⟨rfl, _⟩ := checked_eq_ok_iff.mp checked
      rw [checked] at took
      cases took
      -- The bracket that is left has been used up.
      have shorter := advances_skipItems (skipValueWithin depth).2 .rightParen _ _ _ behind
      exact Nat.lt_irrefl _ (Nat.lt_trans shorter (Nat.lt_succ_self _))

/-- What is read to its end is a value, no deeper than it may be. -/
theorem exists_value_of_run (read : (skipValueWithin depth).1.run stream = .ok ((), rest)) :
    rest.Readable ∧ ∃ value : Value, value.StandsBefore rest stream ∧ value.depth ≤ depth := by
  have looks := (@alike_skipValueWithin id depth).looksAhead stream
  constructor
  · obtain ⟨_, _, _, readable⟩ := looks.exists_used_of_advances (skipValueWithin depth).2 read
    exact readable
  · obtain ⟨used, rfl, skipped⟩ := (readsValues_skipValueWithin depth).reads.sound read
    obtain ⟨value, shown, shallow⟩ := skippedValue_iff.mp skipped
    refine ⟨value, ⟨⟨used, shown.symm, rfl⟩, ?_⟩, shallow⟩
    rintro word rfl
    obtain ⟨inside, rfl⟩ := Nat.exists_eq_add_of_le' shallow
    obtain ⟨token, rfl, front⟩ := List.map_eq_singleton_iff.mp shown.symm
    exact kind_ne_leftParen_of_word front read

end Runs

/-! ## Counting the values that are open -/

section Counting

/-- One value, or two with a colon between them; the second goes on with the count that the
first one leaves. -/
def countedItem (inner : Nat → Reader Nat) (opened : Nat) : Reader Nat := do
  let opened ← inner opened
  if ← takeMark? .colon then inner opened else return opened

theorem advances_countedItem {inner : Nat → Reader Nat}
    (advances : ∀ opened, (inner opened).Advances) (opened : Nat) :
    (countedItem inner opened).Advances := by
  refine (advances opened).bind fun opened => (keeps_takeMark? .colon).bind fun paired => ?_
  split
  · exact (advances opened).keeps
  · exact keeps_pure opened

variable (inner : Nat → Reader Nat) (advances : ∀ opened, (inner opened).Advances)

def countedItems (close : Mark) (opened : Nat) : Reader Nat := do
  let opened ← items close (countedItem inner) (advances_countedItem advances) opened
  expect close .closeSkipped
  return opened

def countedBehind (opened : Nat) : Lexeme → Reader Nat
  | .mark symbol =>
    match symbol.closing? with
    | some close => countedItems inner advances close opened
    | none => return opened
  | .identifier _ => do
    if ← takeMark? .leftParen then countedItems inner advances .rightParen opened
    else return opened
  | _ => return opened

/-- A value of which `inner` reads the items.  It is counted while it is open, unless as many are
open as may be. -/
def countedValueOver (opened : Nat) : Reader Nat :=
  if maxDepth ≤ opened then refuse .nestedTooDeeply
  else do
    let front ← take .value fun lexeme => if lexeme.opensValue then some (.ok lexeme) else none
    let opened ← countedBehind inner advances (opened + 1) front
    return opened - 1

theorem keeps_countedItems (close : Mark) (opened : Nat) :
    (countedItems inner advances close opened).Keeps :=
  (keeps_items _ _ _ _).bind fun opened =>
    (advances_expect _ _).keeps.bind fun _ => keeps_pure opened

theorem keeps_countedBehind (opened : Nat) (front : Lexeme) :
    (countedBehind inner advances opened front).Keeps := by
  unfold countedBehind
  split
  · split
    · exact keeps_countedItems inner advances _ _
    · exact keeps_pure opened
  · refine (keeps_takeMark? _).bind fun bracketed => ?_
    split
    · exact keeps_countedItems inner advances _ _
    · exact keeps_pure opened
  · exact keeps_pure opened

theorem advances_countedValueOver (opened : Nat) :
    (countedValueOver inner advances opened).Advances := by
  unfold countedValueOver
  split
  · exact advances_refuse _
  · exact (advances_take _ _).bind fun front =>
      (keeps_countedBehind inner advances _ front).bind fun opened => keeps_pure _

end Counting

/-- Values inside values, so many levels of them. -/
def countedValueWithin : Nat → { reader : Nat → Reader Nat // ∀ opened, (reader opened).Advances }
  | 0 => ⟨fun _ => refuse .nestedTooDeeply, fun _ => advances_refuse _⟩
  | levels + 1 =>
    let inner := countedValueWithin levels
    ⟨countedValueOver inner.1 inner.2, advances_countedValueOver inner.1 inner.2⟩

/-- Skips a value where so many are open, and tells how many are open behind it. -/
def countedValue : Nat → Reader Nat :=
  (countedValueWithin maxDepth).1

section Equations

variable {inner : Nat → Reader Nat} {plain : Reader Unit} {opened : Nat}

theorem countedItem_eq (same : inner opened = do plain; return opened) :
    countedItem inner opened = do skipItem plain; return opened := by
  rw [countedItem, same, skipItem]
  simp only [bind_assoc, pure_bind]
  apply bind_congr
  intro _
  apply bind_congr
  intro paired
  cases paired with
  | true => exact same
  | false => rfl

/-- Items that leave the state as it is are read like items without one.  The induction is on the
tokens that are left. -/
theorem items_eq_of_constant {item : σ → Reader σ} {state : σ} (close : Mark)
    (advances : ∀ state, (item state).Advances) (advancesPlain : plain.Advances)
    (same : item state = do plain; return state) :
    items close item advances state = do
      items close (fun _ => plain) (fun _ => advancesPlain) ()
      return state := by
  funext stream
  change (items close item advances state).run stream = StateT.run (_ >>= _) stream
  generalize bound : stream.tokens.length = length
  induction length using Nat.strongRecOn generalizing stream with
  | ind length induction =>
      subst bound
      rw [StateT.run_bind, items_eq, items_eq]
      by_cases closed : stream.kind = .mark close
      · rw [if_pos closed, if_pos closed]
        rfl
      · have sameRun : (item state).run stream =
            (plain.run stream).map fun result => (state, result.2) := by
          rw [same, StateT.run_bind]
          cases plain.run stream <;> rfl
        rw [if_neg closed, if_neg closed, sameRun]
        cases read : plain.run stream with
        | error refusal => rfl
        | ok result =>
            obtain ⟨_, rest⟩ := result
            simp only [Except.map]
            cases comma : (takeMark? .comma).run rest with
            | error refusal => rfl
            | ok taken =>
                obtain ⟨more, last⟩ := taken
                cases more with
                | false => rfl
                | true =>
                    have fewer : last.tokens.length < stream.tokens.length :=
                      Nat.lt_of_le_of_lt (keeps_takeMark? _ _ _ _ comma) (advancesPlain _ _ _ read)
                    exact induction _ fewer last rfl

variable (advances : ∀ opened, (inner opened).Advances) (advancesPlain : plain.Advances)
  (same : inner opened = do plain; return opened)

include same

theorem countedItems_eq (close : Mark) :
    countedItems inner advances close opened = do
      skipItems plain advancesPlain close
      return opened := by
  rw [countedItems, skipItems, items_eq_of_constant close (advances_countedItem advances)
    (advances_skipItem advancesPlain) (countedItem_eq same)]
  simp only [bind_assoc, pure_bind]

theorem countedBehind_eq (front : Lexeme) :
    countedBehind inner advances opened front = do
      skipBehind plain advancesPlain front
      return opened := by
  cases front with
  | mark symbol =>
      simp only [countedBehind, skipBehind]
      cases symbol.closing? with
      | some close => exact countedItems_eq advances advancesPlain same close
      | none => rfl
  | identifier name =>
      simp only [countedBehind, skipBehind, skipBehindWord, bind_assoc]
      apply bind_congr
      intro bracketed
      cases bracketed with
      | true => exact countedItems_eq advances advancesPlain same .rightParen
      | false => rfl
  | integer number => rfl
  | string text => rfl

end Equations

/-- The count behind a value is the one before it, and what it leaves of the limit is how deep the
value may nest.  The induction is on the levels, which are enough for that. -/
theorem countedValueWithin_eq {levels opened : Nat} (enough : maxDepth ≤ opened + levels) :
    (countedValueWithin levels).1 opened = do
      (skipValueWithin (maxDepth - opened)).1
      return opened := by
  induction levels generalizing opened with
  | zero =>
      have limit : maxDepth ≤ opened := enough
      rw [Nat.sub_eq_zero_of_le limit]
      rfl
  | succ levels induction =>
      change countedValueOver _ (countedValueWithin levels).2 opened = _
      by_cases limit : maxDepth ≤ opened
      · rw [countedValueOver, if_pos limit, Nat.sub_eq_zero_of_le limit]
        rfl
      · have inside : maxDepth - opened = maxDepth - (opened + 1) + 1 := by omega
        have same := @induction (opened + 1) (by omega)
        rw [countedValueOver, if_neg limit, inside]
        have advances := (skipValueWithin (maxDepth - (opened + 1))).2
        change _ = (do
          skipValueOver _ advances
          return opened)
        simp only [skipValueOver, bind_assoc, countedBehind_eq _ advances same, pure_bind,
          Nat.add_sub_cancel]

/-- The values inside are skipped as the value itself is: the levels never come to their end before
the count does. -/
theorem countedValue_eq :
    countedValue = countedValueOver countedValue (countedValueWithin maxDepth).2 := by
  funext opened
  change _ = (countedValueWithin (maxDepth + 1)).1 opened
  rw [countedValue, countedValueWithin_eq (Nat.le_add_left _ _),
    countedValueWithin_eq (Nat.le_trans (Nat.le_succ _) (Nat.le_add_left _ _))]

theorem countedValue_run (opened : Nat) (stream : TokenStream) :
    (countedValue opened).run stream =
      ((skipValueWithin (maxDepth - opened)).1.run stream).map fun result =>
        (opened, result.2) := by
  rw [countedValue, countedValueWithin_eq (Nat.le_add_left _ _), StateT.run_bind]
  cases (skipValueWithin (maxDepth - opened)).1.run stream <;> rfl

theorem depth_le_sub_iff {value : Value} {opened : Nat} :
    value.depth ≤ maxDepth - opened ↔ opened + value.depth ≤ maxDepth := by
  have := value.depth_pos
  omega

/-- Where so many values are open, one more is skipped just if it stands at the front of the stream
and stays within the limit.  All of that value is used up, and the count is what it was.  Only a
fault that is fetched behind it is told instead.  With no value open this is `skipValue`. -/
theorem countedValue_skips_values (opened : Nat) (stream : TokenStream) :
    (∀ after rest, (countedValue opened).run stream = .ok (after, rest) ↔
      after = opened ∧ rest.Readable ∧
        ∃ value : Value, value.StandsBefore rest stream ∧ opened + value.depth ≤ 128) ∧
    (∀ (value : Value) rest, value.StandsBefore rest stream → opened + value.depth ≤ 128 →
      (countedValue opened).run stream = rest.checked.map (opened, ·)) ∧
    skipValue.run stream = ((countedValue 0).run stream).map fun result => ((), result.2) := by
  have takes : ∀ (value : Value) rest, value.StandsBefore rest stream →
      opened + value.depth ≤ maxDepth →
        (countedValue opened).run stream = rest.checked.map (opened, ·) := by
    intro value rest stands shallow
    rw [countedValue_run, skipValueWithin_run stands (depth_le_sub_iff.mpr shallow)]
    cases rest.checked <;> rfl
  refine ⟨fun after rest => ⟨?_, ?_⟩, takes, ?_⟩
  · intro skipped
    rw [countedValue_run] at skipped
    cases read : (skipValueWithin (maxDepth - opened)).1.run stream with
    | error refusal =>
        rw [read] at skipped
        cases skipped
    | ok result =>
        rw [read] at skipped
        cases skipped
        obtain ⟨readable, value, stands, shallow⟩ := exists_value_of_run read
        exact ⟨rfl, readable, value, stands, depth_le_sub_iff.mp shallow⟩
  · rintro ⟨rfl, readable, value, stands, shallow⟩
    rw [takes value rest stands shallow, checked_eq_ok_iff.mpr ⟨rfl, readable⟩]
    rfl
  · rw [countedValue_run, Nat.sub_zero, skipValue]
    cases (skipValueWithin maxDepth).1.run stream <;> rfl

end Reader

end OpcodeCatalog.Source

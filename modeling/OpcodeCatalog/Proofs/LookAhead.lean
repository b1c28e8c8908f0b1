import OpcodeCatalog.Proofs.AlikeReaders
import OpcodeCatalog.Proofs.Reading

/-!
# How far readers look ahead

A reader fetches one token more than it uses up, and what it comes to depends on
nothing behind that token.  If a fault is fetched there in its place, the fault
is told instead of whatever the reader would have come to.
-/

namespace OpcodeCatalog.Source

namespace TokenStream

/-- The token that was fetched last, or the ending if there is no token. -/
def front (stream : TokenStream) : Reading :=
  match stream.tokens with
  | token :: _ => .token token
  | [] => .ending stream.ending

variable {stream other : TokenStream}

theorem front_eq_token_iff {token : Token} :
    stream.front = .token token ↔ ∃ rest : TokenStream, stream = rest.behind [token] := by
  obtain ⟨tokens, ending⟩ := stream
  constructor
  · intro atFront
    cases tokens with
    | nil => cases atFront
    | cons first tokens =>
        cases atFront
        exact ⟨⟨tokens, ending⟩, rfl⟩
  · rintro ⟨rest, split⟩
    cases split
    rfl

theorem front_eq_ending_iff {ending : Ending} :
    stream.front = .ending ending ↔ stream = ⟨[], ending⟩ := by
  obtain ⟨tokens, last⟩ := stream
  constructor
  · intro atFront
    cases tokens with
    | nil =>
        cases atFront
        rfl
    | cons first tokens => cases atFront
  · intro same
    cases same
    rfl

/-- The kind, the place and the check of a stream are those of its front. -/
theorem same_of_front (same : other.front = stream.front) :
    other.kind = stream.kind ∧ other.location = stream.location ∧
      other.checked = stream.checked.map fun _ => other := by
  cases atFront : stream.front with
  | token token =>
      obtain ⟨rest, rfl⟩ := front_eq_token_iff.mp (same.trans atFront)
      obtain ⟨rest', rfl⟩ := front_eq_token_iff.mp atFront
      exact ⟨rfl, rfl, rfl⟩
  | ending ending =>
      obtain rfl := front_eq_ending_iff.mp (same.trans atFront)
      obtain rfl := front_eq_ending_iff.mp atFront
      refine ⟨rfl, rfl, ?_⟩
      unfold checked
      cases ending.fault <;> rfl

theorem front_behind (same : other.front = stream.front) (used : List Token) :
    (other.behind used).front = (stream.behind used).front := by
  cases used with
  | nil => exact same
  | cons token used => rfl

theorem checked_behind {used : List Token} (nonempty : used ≠ []) :
    (stream.behind used).checked = .ok (stream.behind used) := by
  cases used with
  | nil => exact (nonempty rfl).elim
  | cons token used => rfl

end TokenStream

namespace Reader

open TokenStream

/-- Whether a mark stands at the front. -/
def standsAhead (mark : Mark) : Reader Bool := fun stream =>
  .ok (decide (stream.kind = .mark mark), stream)

/-- `items` as readers put together, the last of which is `items` again. -/
theorem items_eq_bind (close : Mark) (item : σ → Reader σ)
    (advances : ∀ state, (item state).Advances) (state : σ) :
    items close item advances state = (do
      if ← standsAhead close then return state
      else
        let next ← item state
        if ← takeMark? .comma then items close item advances next else return next) := by
  funext stream
  change (items close item advances state).run stream = StateT.run (_ >>= _) stream
  rw [items_eq, StateT.run_bind]
  change _ = StateT.run (if decide (stream.kind = .mark close) then _ else _) stream
  by_cases closed : stream.kind = .mark close
  · rw [if_pos closed, if_pos (decide_eq_true closed)]
    rfl
  · rw [if_neg closed, if_neg (by rwa [decide_eq_true_iff]), StateT.run_bind]
    cases (item state).run stream with
    | error refusal => rfl
    | ok result =>
        obtain ⟨next, rest⟩ := result
        change _ = StateT.run (takeMark? .comma >>= fun more =>
          if more then items close item advances next else return next) rest
        rw [StateT.run_bind]
        dsimp only
        cases (takeMark? .comma).run rest with
        | error refusal => rfl
        | ok comma =>
            obtain ⟨more, last⟩ := comma
            cases more <;> rfl

/-- Having used up some tokens, the reader has fetched the front of `last`.  That front settles what
it comes to, and a fault found there is told before anything else. -/
structure Fetches (reader : Reader α) (used : List Token) (last : TokenStream)
    (result : Except Refusal α) : Prop where
  settled : ∀ other : TokenStream, other.front = last.front →
    reader.run (other.behind used) = result.map (·, other)
  overtaken : used ≠ [] → ∀ (other : TokenStream) (refusal : Refusal),
    other.checked = .error refusal → reader.run (other.behind used) = .error refusal

/-- Of the stream, the reader sees no more than it fetches. -/
def LooksAhead (reader : Reader α) (stream : TokenStream) : Prop :=
  ∃ used last result, stream = last.behind used ∧ Fetches reader used last result

namespace LooksAhead

variable {stream : TokenStream}

/-- A reader that uses up nothing looks at the front of the stream only. -/
theorem atFront {reader : Reader α} (result : Except Refusal α)
    (settled : ∀ other : TokenStream, other.front = stream.front →
      reader.run other = result.map (·, other)) :
    LooksAhead reader stream :=
  ⟨[], stream, result, rfl, settled, fun nonempty => (nonempty rfl).elim⟩

theorem pure (value : α) : LooksAhead (Pure.pure value) stream := by
  apply atFront (.ok value)
  intro other _
  rfl

theorem refuseAt (place : Location) (reason : Reason) :
    LooksAhead (Reader.refuseAt place reason : Reader α) stream := by
  apply atFront (.error ⟨reason, place⟩)
  intro other _
  rfl

theorem location : LooksAhead Reader.location stream := by
  apply atFront (.ok stream.location)
  intro other same
  rw [← (same_of_front same).2.1]
  rfl

theorem refuse (reason : Reason) : LooksAhead (Reader.refuse reason : Reader α) stream := by
  apply atFront (.error ⟨reason, stream.location⟩)
  intro other same
  rw [← (same_of_front same).2.1]
  rfl

theorem endOfInput : LooksAhead Reader.endOfInput stream := by
  apply atFront (if stream.kind ≠ .endOfInput then .error ⟨.trailingContent, stream.location⟩
    else .ok ())
  intro other same
  change (if other.kind ≠ .endOfInput then Reader.refuse .trailingContent else Pure.pure ()).run
    other = _
  rw [← (same_of_front same).1, ← (same_of_front same).2.1]
  split <;> rfl

/-- Behind a token that is used up, the next one is fetched at once. -/
theorem proceed {reader : Reader α} {token : Token} {last : TokenStream} {value : α}
    (behind : ∀ other : TokenStream, reader.run (other.behind [token]) =
      other.checked.map (value, ·)) :
    LooksAhead reader (last.behind [token]) := by
  refine ⟨[token], last, last.checked.map fun _ => value, rfl, ?_, ?_⟩
  · intro other same
    rw [behind, (same_of_front same).2.2]
    cases last.checked <;> rfl
  · intro _ other refusal fault
    rw [behind, fault]
    rfl

theorem take_run_behind (wanted : Wanted) (pick : Lexeme → Option (Except Reason α))
    (token : Token) (rest : TokenStream) :
    (Reader.take wanted pick).run (rest.behind [token]) =
      match pick token.lexeme with
      | none => .error ⟨.unexpected wanted token.lexeme.kind, token.location⟩
      | some (.error reason) => .error ⟨reason, token.location⟩
      | some (.ok value) => rest.checked.map (value, ·) := rfl

theorem takeMark?_run_behind (mark : Mark) (token : Token) (rest : TokenStream) :
    (Reader.takeMark? mark).run (rest.behind [token]) =
      if token.lexeme = .mark mark then rest.checked.map (true, ·)
      else .ok (false, rest.behind [token]) := rfl

theorem take (wanted : Wanted) (pick : Lexeme → Option (Except Reason α)) :
    LooksAhead (Reader.take wanted pick) stream := by
  cases atFront : stream.front with
  | ending ending =>
      obtain rfl := front_eq_ending_iff.mp atFront
      apply LooksAhead.atFront
        (.error ⟨.unexpected wanted (TokenStream.kind ⟨[], ending⟩), ending.location⟩)
      intro other same
      obtain rfl := front_eq_ending_iff.mp same
      rfl
  | token token =>
      obtain ⟨last, rfl⟩ := front_eq_token_iff.mp atFront
      cases picked : pick token.lexeme with
      | none =>
          apply LooksAhead.atFront (.error ⟨.unexpected wanted token.lexeme.kind, token.location⟩)
          intro other same
          obtain ⟨rest, rfl⟩ := front_eq_token_iff.mp same
          rw [take_run_behind, picked]
          rfl
      | some outcome =>
          cases outcome with
          | error reason =>
              apply LooksAhead.atFront (.error ⟨reason, token.location⟩)
              intro other same
              obtain ⟨rest, rfl⟩ := front_eq_token_iff.mp same
              rw [take_run_behind, picked]
              rfl
          | ok value =>
              apply proceed
              intro other
              rw [take_run_behind, picked]

theorem takeMark? (mark : Mark) : LooksAhead (Reader.takeMark? mark) stream := by
  cases atFront : stream.front with
  | ending ending =>
      obtain rfl := front_eq_ending_iff.mp atFront
      apply LooksAhead.atFront (.ok false)
      intro other same
      obtain rfl := front_eq_ending_iff.mp same
      rfl
  | token token =>
      obtain ⟨last, rfl⟩ := front_eq_token_iff.mp atFront
      by_cases present : token.lexeme = .mark mark
      · apply proceed
        intro other
        rw [takeMark?_run_behind, if_pos present]
      · apply LooksAhead.atFront (.ok false)
        intro other same
        obtain ⟨rest, rfl⟩ := front_eq_token_iff.mp same
        rw [takeMark?_run_behind, if_neg present]
        rfl

theorem bind {first : Reader α} {second : α → Reader β} (early : LooksAhead first stream)
    (late : ∀ value rest, first.run stream = .ok (value, rest) → LooksAhead (second value) rest) :
    LooksAhead (first >>= second) stream := by
  obtain ⟨used, last, result, rfl, fetches⟩ := early
  have settled := fetches.settled last rfl
  cases result with
  | error refusal =>
      refine ⟨used, last, .error refusal, rfl, ?_, ?_⟩
      · intro other same
        exact run_bind_of_error (fetches.settled other same)
      · intro nonempty other refusal fault
        exact run_bind_of_error (fetches.overtaken nonempty other refusal fault)
  | ok value =>
      obtain ⟨usedLater, final, result, rfl, fetchesLater⟩ := late value last settled
      have early : ∀ other : TokenStream,
          (other.behind usedLater).front = (final.behind usedLater).front →
            (first >>= second).run (other.behind (used ++ usedLater)) =
              (second value).run (other.behind usedLater) := by
        intro other same
        rw [behind_append]
        exact run_bind_of_ok (fetches.settled _ same)
      refine ⟨used ++ usedLater, final, result, (behind_append _ _ _).symm, ?_, ?_⟩
      · intro other same
        rw [early other (front_behind same usedLater)]
        exact fetchesLater.settled other same
      · intro nonempty other refusal fault
        cases usedLater with
        | nil =>
            rw [List.append_nil] at nonempty ⊢
            exact run_bind_of_error (fetches.overtaken nonempty other refusal fault)
        | cons token usedLater =>
            rw [early other rfl]
            exact fetchesLater.overtaken (List.cons_ne_nil _ _) other refusal fault

theorem ite {condition : Prop} [Decidable condition] {first second : Reader α}
    (yes : LooksAhead first stream) (no : LooksAhead second stream) :
    LooksAhead (if condition then first else second) stream := by
  split
  · exact yes
  · exact no

theorem standsAhead (mark : Mark) : LooksAhead (Reader.standsAhead mark) stream := by
  apply atFront (.ok (decide (stream.kind = .mark mark)))
  intro other same
  rw [← (same_of_front same).1]
  rfl

/-- The induction is on the tokens that are left: each item uses up at least one. -/
theorem items {close : Mark} {item : σ → Reader σ} (advances : ∀ state, (item state).Advances)
    (looks : ∀ state stream, LooksAhead (item state) stream) (state : σ) (stream : TokenStream) :
    LooksAhead (Reader.items close item advances state) stream := by
  generalize bound : stream.tokens.length = length
  induction length using Nat.strongRecOn generalizing state stream with
  | ind length induction =>
      subst bound
      rw [items_eq_bind]
      apply (standsAhead close).bind
      intro closed rest stands
      cases stands
      apply ite
      · exact .pure state
      · apply (looks state stream).bind
        intro next behind read
        apply (takeMark? .comma).bind
        intro more last comma
        have fewer : last.tokens.length < stream.tokens.length :=
          Nat.lt_of_le_of_lt (keeps_takeMark? _ _ _ _ comma) (advances _ _ _ _ read)
        exact ite (induction _ fewer next last rfl) (.pure next)

end LooksAhead

/-- Every reader of catalogs sees no more than it fetches. -/
theorem Alike.looksAhead {move : Location → Location} {reader other : Reader α}
    (alike : Alike move reader other) (stream : TokenStream) : LooksAhead reader stream := by
  induction alike generalizing stream with
  | pure value => exact .pure value
  | refuseAt place reason => exact .refuseAt place reason
  | refuse reason => exact .refuse reason
  | take wanted pick => exact .take wanted pick
  | takeMark? mark => exact .takeMark? mark
  | endOfInput => exact .endOfInput
  | bind _ _ early late => exact (early stream).bind fun value rest _ => late value rest
  | location_bind _ late => exact LooksAhead.location.bind fun place rest _ => late place rest
  | items advances _ state looks => exact .items advances looks state stream

/-- What a reader leaves is behind what it uses up.  If that is anything, no fault is next: it
would have been told. -/
theorem LooksAhead.exists_used {reader : Reader α} {stream rest : TokenStream} {value : α}
    (looks : LooksAhead reader stream) (read : reader.run stream = .ok (value, rest)) :
    ∃ used, stream = rest.behind used ∧ (used ≠ [] → rest.Readable) := by
  obtain ⟨used, last, result, rfl, fetches⟩ := looks
  have settled := fetches.settled last rfl
  rw [read] at settled
  cases result with
  | error refusal => cases settled
  | ok found =>
      cases settled
      refine ⟨used, rfl, fun nonempty => ?_⟩
      cases checked : rest.checked with
      | ok passed => exact (checked_eq_ok_iff.mp checked).2
      | error refusal =>
          rw [fetches.overtaken nonempty rest refusal checked] at read
          cases read

/-- A reader that advances does use up something. -/
theorem LooksAhead.exists_used_of_advances {reader : Reader α} {stream rest : TokenStream}
    {value : α} (looks : LooksAhead reader stream) (advances : reader.Advances)
    (read : reader.run stream = .ok (value, rest)) :
    ∃ used, used ≠ [] ∧ stream = rest.behind used ∧ rest.Readable := by
  obtain ⟨used, split, readable⟩ := looks.exists_used read
  have nonempty : used ≠ [] := by
    rintro rfl
    have shorter := advances _ _ _ read
    rw [split] at shorter
    exact Nat.lt_irrefl _ shorter
  exact ⟨used, nonempty, split, readable nonempty⟩

/-- Behind a text that it reads to the end, a reader tells a fault that is fetched there. -/
theorem Reads.run_behind {reader : Reader α} {text : α → List Lexeme → Prop} {value : α}
    {used : List Token} (reads : Reads reader text) (looks : ∀ stream, LooksAhead reader stream)
    (shown : text value (used.map Token.lexeme)) (nonempty : used ≠ []) (last : TokenStream) :
    reader.run (last.behind used) = last.checked.map (value, ·) := by
  cases checked : last.checked with
  | ok passed =>
      obtain ⟨rfl, readable⟩ := checked_eq_ok_iff.mp checked
      exact reads.complete shown trivial readable
  | error refusal =>
      -- What the reader fetches is found where no fault follows: just the text, and what is next.
      let bare : TokenStream := ⟨[], ⟨none, {}⟩⟩
      have read : reader.run (bare.behind used) = .ok (value, bare) :=
        reads.complete shown trivial fun _ => rfl
      obtain ⟨fetched, next, result, split, fetches⟩ := looks (bare.behind used)
      have settled := fetches.settled next rfl
      rw [← split, read] at settled
      cases result with
      | error other => cases settled
      | ok found =>
          cases settled
          have same : used = fetched := by
            have tokens := congrArg TokenStream.tokens split
            rwa [behind, behind, List.append_nil, List.append_nil] at tokens
          subst same
          exact fetches.overtaken nonempty last refusal checked

end Reader

namespace TokenStream

theorem instructions_of_checked {stream checked : TokenStream}
    (passed : stream.checked = .ok checked) :
    stream.instructions = (Reader.catalog.run checked).map Prod.fst := by
  unfold instructions
  rw [passed]
  change (Reader.catalog.run checked).bind _ = _
  cases Reader.catalog.run checked <;> rfl

end TokenStream

end OpcodeCatalog.Source

import OpcodeCatalog.Proofs.LookAhead
import OpcodeCatalog.Proofs.ScannerCalls

/-!
# Rounds of loops

The only loops of a reader are those that read items, round by round.  `Ends`
takes them apart without the facts that `items` is defined by: a round reads an
item, which uses up a token or is refused, and another round begins only behind a
comma.  All readers of catalogs come to an end in this way, and their loops go on
no more often than there are tokens, all of them together.
-/

namespace OpcodeCatalog.Source

namespace Reader

open TokenStream

/-- On the stream the reader is refused or uses up a token. -/
def UsesUp (reader : Reader α) (stream : TokenStream) : Prop :=
  ∀ value rest, reader.run stream = .ok (value, rest) →
    ∃ used, used ≠ [] ∧ stream = rest.behind used

/-- Reading the stream comes to an end, with its loops going on to another round so many times. -/
inductive Ends : Nat → {α : Type} → Reader α → TokenStream → Prop where
  | pure {α : Type} (value : α) (stream : TokenStream) :
      Ends 0 (Pure.pure value : Reader α) stream
  | refuseAt {α : Type} (place : Location) (reason : Reason) (stream : TokenStream) :
      Ends 0 (Reader.refuseAt place reason : Reader α) stream
  | refuse {α : Type} (reason : Reason) (stream : TokenStream) :
      Ends 0 (Reader.refuse reason : Reader α) stream
  | location (stream : TokenStream) : Ends 0 Reader.location stream
  | take {α : Type} (wanted : Wanted) (pick : Lexeme → Option (Except Reason α))
      (stream : TokenStream) :
      Ends 0 (Reader.take wanted pick) stream
  | takeMark? (mark : Mark) (stream : TokenStream) : Ends 0 (Reader.takeMark? mark) stream
  | endOfInput (stream : TokenStream) : Ends 0 Reader.endOfInput stream
  | bind {α β : Type} {first : Reader α} {second : α → Reader β} {stream : TokenStream}
      {again later : Nat} :
      Ends again first stream →
      (∀ value rest, first.run stream = .ok (value, rest) → Ends later (second value) rest) →
      Ends (again + later) (first >>= second) stream
  | closed {σ : Type} {close : Mark} {item : σ → Reader σ} {state : σ} {stream : TokenStream}
      (advances : ∀ state, (item state).Advances) :
      stream.kind = .mark close →
      Ends 0 (Reader.items close item advances state) stream
  | lastRound {σ : Type} {close : Mark} {item : σ → Reader σ} {state : σ} {stream : TokenStream}
      {inside : Nat} (advances : ∀ state, (item state).Advances) :
      stream.kind ≠ .mark close →
      UsesUp (item state) stream →
      Ends inside (item state) stream →
      (∀ next rest more, (item state).run stream = .ok (next, rest) →
        (Reader.takeMark? .comma).run rest ≠ .ok (true, more)) →
      Ends inside (Reader.items close item advances state) stream
  | anotherRound {σ : Type} {close : Mark} {item : σ → Reader σ} {state next : σ}
      {stream rest more : TokenStream} {inside later : Nat}
      (advances : ∀ state, (item state).Advances) :
      stream.kind ≠ .mark close →
      UsesUp (item state) stream →
      Ends inside (item state) stream →
      (item state).run stream = .ok (next, rest) →
      (Reader.takeMark? .comma).run rest = .ok (true, more) →
      Ends later (Reader.items close item advances next) more →
      Ends (inside + 1 + later) (Reader.items close item advances state) stream

/-- How many tokens an outcome leaves; a refusal leaves none. -/
def tokensLeft : Except Refusal (α × TokenStream) → Nat
  | .ok (_, rest) => rest.tokens.length
  | .error _ => 0

/-- Reading comes to an end, and every further round is paid for by a token that is used up. -/
def EndsSoon (reader : Reader α) (stream : TokenStream) : Prop :=
  ∃ again, Ends again reader stream ∧
    again + tokensLeft (reader.run stream) ≤ stream.tokens.length

theorem Keeps.tokensLeft_le {reader : Reader α} (keeps : reader.Keeps) (stream : TokenStream) :
    tokensLeft (reader.run stream) ≤ stream.tokens.length := by
  cases read : reader.run stream with
  | error refusal => exact Nat.zero_le _
  | ok result => exact keeps _ _ _ read

theorem UsesUp.of_advances {reader : Reader α} {stream : TokenStream} (advances : reader.Advances)
    (looks : LooksAhead reader stream) : UsesUp reader stream := by
  intro value rest read
  obtain ⟨used, nonempty, split, _⟩ := looks.exists_used_of_advances advances read
  exact ⟨used, nonempty, split⟩

theorem keeps_endOfInput : endOfInput.Keeps := by
  apply keeps_get.bind
  intro stream
  split
  · exact (advances_refuse _).keeps
  · exact keeps_pure ()

/-- A mark that is taken is a token less. -/
theorem length_of_takeMark? {mark : Mark} {stream rest : TokenStream}
    (taken : (takeMark? mark).run stream = .ok (true, rest)) :
    rest.tokens.length < stream.tokens.length := by
  obtain ⟨used, rfl, shown⟩ := (Reads.takeMark? mark).sound taken
  obtain ⟨token, rfl, _⟩ := List.map_eq_singleton_iff.mp shown
  exact Nat.lt_succ_self _

namespace EndsSoon

variable {stream : TokenStream}

theorem ofKeeps {reader : Reader α} (ends : Ends 0 reader stream) (keeps : reader.Keeps) :
    EndsSoon reader stream := by
  refine ⟨0, ends, ?_⟩
  rw [Nat.zero_add]
  exact keeps.tokensLeft_le stream

theorem bind {first : Reader α} {second : α → Reader β} (early : EndsSoon first stream)
    (late : ∀ value rest, EndsSoon (second value) rest) : EndsSoon (first >>= second) stream := by
  obtain ⟨again, ends, few⟩ := early
  cases read : first.run stream with
  | error refusal =>
      refine ⟨again + 0, .bind ends ?_, ?_⟩
      · intro value rest accepted
        rw [read] at accepted
        cases accepted
      · rw [run_bind_of_error read]
        rwa [read] at few
  | ok result =>
      obtain ⟨value, rest⟩ := result
      obtain ⟨later, endsLater, fewLater⟩ := late value rest
      refine ⟨again + later, .bind ends ?_, ?_⟩
      · intro other left accepted
        rw [read] at accepted
        cases accepted
        exact endsLater
      · rw [run_bind_of_ok read]
        rw [read] at few
        simp only [tokensLeft] at few
        omega

/-- The induction is on the tokens that are left: behind a comma there are fewer. -/
theorem items {close : Mark} {item : σ → Reader σ} (advances : ∀ state, (item state).Advances)
    (usesUp : ∀ state stream, UsesUp (item state) stream)
    (ends : ∀ state stream, EndsSoon (item state) stream) (state : σ) (stream : TokenStream) :
    EndsSoon (Reader.items close item advances state) stream := by
  generalize bound : stream.tokens.length = length
  induction length using Nat.strongRecOn generalizing state stream with
  | ind length induction =>
      subst bound
      unfold EndsSoon
      rw [items_eq]
      by_cases closed : stream.kind = .mark close
      · rw [if_pos closed]
        exact ⟨0, .closed advances closed, Nat.le_of_eq (Nat.zero_add _)⟩
      · rw [if_neg closed]
        obtain ⟨inside, endsInside, few⟩ := ends state stream
        have lastRound := Ends.lastRound advances closed (usesUp state stream) endsInside
        cases read : (item state).run stream with
        | error refusal =>
            rw [read] at few
            exact ⟨inside, lastRound (by simp [read]), few⟩
        | ok result =>
            obtain ⟨next, rest⟩ := result
            simp only [read, tokensLeft] at few
            have endsHere : (∀ more, (takeMark? .comma).run rest ≠ .ok (true, more)) →
                Ends inside (Reader.items close item advances state) stream := by
              intro missing
              apply lastRound
              intro other left more same
              rw [read] at same
              cases same
              exact missing more
            cases comma : (takeMark? .comma).run rest with
            | error refusal =>
                refine ⟨inside, endsHere (by simp [comma]), ?_⟩
                simp only [tokensLeft, comma]
                omega
            | ok taken =>
                obtain ⟨more, last⟩ := taken
                cases more with
                | false =>
                    have kept := keeps_takeMark? _ _ _ _ comma
                    refine ⟨inside, endsHere (by simp [comma]), ?_⟩
                    simp only [tokensLeft, comma]
                    omega
                | true =>
                    have fewer := length_of_takeMark? comma
                    obtain ⟨later, endsLater, fewLater⟩ := induction _ (by omega) next last rfl
                    refine ⟨inside + 1 + later, .anotherRound advances closed (usesUp state stream)
                      endsInside read comma endsLater, ?_⟩
                    simp only [comma]
                    omega

end EndsSoon

theorem Alike.endsSoon {move : Location → Location} {reader other : Reader α}
    (alike : Alike move reader other) (stream : TokenStream) : EndsSoon reader stream := by
  induction alike generalizing stream with
  | pure value => exact .ofKeeps (.pure value stream) (keeps_pure value)
  | refuseAt place reason =>
      exact .ofKeeps (.refuseAt place reason stream) (advances_refuseAt place reason).keeps
  | refuse reason => exact .ofKeeps (.refuse reason stream) (advances_refuse reason).keeps
  | take wanted pick => exact .ofKeeps (.take wanted pick stream) (advances_take wanted pick).keeps
  | takeMark? mark => exact .ofKeeps (.takeMark? mark stream) (keeps_takeMark? mark)
  | endOfInput => exact .ofKeeps (.endOfInput stream) keeps_endOfInput
  | bind _ _ early late => exact (early stream).bind late
  | location_bind _ late =>
      exact (EndsSoon.ofKeeps (.location stream) keeps_location).bind late
  | items advances alike state ends =>
      exact .items advances
        (fun state stream => .of_advances (advances state) ((alike state).looksAhead stream)) ends
        state stream

end Reader

/-- Every token takes a byte at least. -/
theorem Scanner.length_tokens_run_le (scanner : Scanner) :
    scanner.run.1.tokens.length ≤ scanner.rest.length := by
  induction scanner using Scanner.run.induct with
  | case1 scanner ending after read =>
      rw [run_of_ending read]
      exact Nat.zero_le _
  | case2 scanner token after read _ _ _ induction =>
      have shorter := length_rest_next_token read
      rw [run_of_token read]
      exact Nat.le_trans (Nat.succ_le_succ induction) shorter

/-- A call of the scanner stays inside the source and passes over some of it, unless it finds the
end of the input.  That happens after no more calls than there are bytes, and from the first ending
on.  The reader of catalogs comes to an end as well, and what its loops go on with is paid for in
bytes too. -/
theorem scanning_and_reading_end (file : UInt32) (source : Bytes) :
    (∀ calls, ∃ before used,
      (Scanner.ofSource file source).Passes ((Scanner.ofSource file source).called calls) before ∧
        ((Scanner.ofSource file source).called calls).Passes
          ((Scanner.ofSource file source).called (calls + 1)) used ∧
        (((Scanner.ofSource file source).called calls).next.1.isEndOfInput = false → used ≠ [])) ∧
    (∃ count ≤ source.length, ∀ calls,
      ((Scanner.ofSource file source).called calls).next.1.isEndOfInput = true ↔ count ≤ calls) ∧
    (∀ calls later, ((Scanner.ofSource file source).called calls).next.1.isEnding = true →
      calls < later →
        (Scanner.ofSource file source).called later =
          (Scanner.ofSource file source).called (calls + 1) ∧
        ((Scanner.ofSource file source).called later).AtEnd) ∧
    ∃ again ≤ source.length,
      Reader.Ends again Reader.catalog (TokenStream.ofSource file source) := by
  refine ⟨fun calls => ?_, (Scanner.ofSource file source).exists_calls,
    fun calls later => Scanner.called_of_isEnding, ?_⟩
  · obtain ⟨before, passes⟩ := (Scanner.ofSource file source).passes_called calls
    obtain ⟨used, step, progress⟩ :=
      ((Scanner.ofSource file source).called calls).call_next.passes
    rw [← Scanner.called_succ'] at step
    exact ⟨before, used, passes, step, progress⟩
  · obtain ⟨again, ends, few⟩ :=
      (@Reader.alike_catalog id).endsSoon (TokenStream.ofSource file source)
    have fewTokens : (TokenStream.ofSource file source).tokens.length ≤ source.length :=
      (Scanner.ofSource file source).length_tokens_run_le
    exact ⟨again, by omega, ends⟩

end OpcodeCatalog.Source

import OpcodeCatalog.Proofs.Grammar

/-!
# What a reader reads

`Reads` relates a reader to the texts it takes: whatever it uses up is such a
text, and every such text is used up as far as what stands ahead lets it.  There
is one lemma for each way of putting readers together, so the texts of a reader
follow its definition.
-/

namespace OpcodeCatalog.Source

namespace TokenStream

/-- The stream with further tokens in front. -/
def behind (used : List Token) (rest : TokenStream) : TokenStream :=
  ⟨used ++ rest.tokens, rest.ending⟩

def lexemes (stream : TokenStream) : List Lexeme :=
  stream.tokens.map Token.lexeme

/-- No fault stands at the front. -/
def Readable (stream : TokenStream) : Prop :=
  stream.tokens = [] → stream.ending.fault = none

@[simp] theorem behind_nil (rest : TokenStream) : rest.behind [] = rest := rfl

@[simp] theorem behind_append (first second : List Token) (rest : TokenStream) :
    rest.behind (first ++ second) = (rest.behind second).behind first := by
  simp [behind]

@[simp] theorem lexemes_behind (used : List Token) (rest : TokenStream) :
    (rest.behind used).lexemes = used.map Token.lexeme ++ rest.lexemes := by
  simp [behind, lexemes]

theorem Readable.behind {rest : TokenStream} (readable : rest.Readable) (used : List Token) :
    (rest.behind used).Readable := by
  intro empty
  exact readable (List.append_eq_nil_iff.mp empty).2

theorem checked_eq_ok_iff {stream checked : TokenStream} :
    stream.checked = .ok checked ↔ stream = checked ∧ stream.Readable := by
  unfold TokenStream.checked Readable
  split
  · next empty fault => simp [empty, fault]
  · next possible =>
    constructor
    · intro passed
      cases passed
      refine ⟨rfl, ?_⟩
      intro empty
      cases fault : stream.ending.fault with
      | none => rfl
      | some fault' => exact (possible fault' empty fault).elim
    · intro found
      obtain ⟨rfl, -⟩ := found
      rfl

theorem kind_eq_mark_iff {stream : TokenStream} {mark : Mark} :
    stream.kind = .mark mark ↔ stream.lexemes.head? = some (.mark mark) := by
  unfold kind lexemes
  cases stream.tokens with
  | nil =>
      simp only [List.map_nil, List.head?_nil]
      split <;> simp
  | cons token tokens =>
      obtain ⟨lexeme, place⟩ := token
      cases lexeme <;> simp [Lexeme.kind]

end TokenStream

namespace Reader

open TokenStream

section Runs

variable {stream rest : TokenStream} {refusal : Refusal}

theorem run_bind_of_ok {first : Reader α} {second : α → Reader β} {value : α}
    (read : first.run stream = .ok (value, rest)) :
    (first >>= second).run stream = (second value).run rest := by
  rw [StateT.run_bind, read]
  rfl

theorem run_bind_of_error {first : Reader α} {second : α → Reader β}
    (refused : first.run stream = .error refusal) :
    (first >>= second).run stream = .error refusal := by
  rw [StateT.run_bind, refused]
  rfl

theorem run_bind_eq_error_iff {first : Reader α} {second : α → Reader β} :
    (first >>= second).run stream = .error refusal ↔
      first.run stream = .error refusal ∨
        ∃ value rest, first.run stream = .ok (value, rest) ∧
          (second value).run rest = .error refusal := by
  cases read : first.run stream with
  | error other =>
      rw [run_bind_of_error read]
      constructor
      · intro refused
        cases refused
        exact .inl rfl
      · rintro (same | ⟨_, _, accepted, _⟩)
        · cases same
          rfl
        · cases accepted
  | ok result =>
      obtain ⟨value, rest⟩ := result
      rw [run_bind_of_ok read]
      constructor
      · intro refused
        exact .inr ⟨value, rest, rfl, refused⟩
      · rintro (same | ⟨_, _, accepted, refused⟩)
        · cases same
        · cases accepted
          exact refused

end Runs

/-- `reader` uses up exactly the texts of `text`.  It stops behind one where `ahead`
holds of what follows, and where no fault is next. -/
structure Reads (reader : Reader α) (text : α → List Lexeme → Prop)
    (ahead : α → List Lexeme → Prop := fun _ _ => True) : Prop where
  sound : ∀ {stream value rest}, reader.run stream = .ok (value, rest) →
    ∃ used, stream = rest.behind used ∧ text value (used.map Token.lexeme)
  complete : ∀ {used value rest}, text value (used.map Token.lexeme) →
    ahead value rest.lexemes → rest.Readable →
      reader.run (rest.behind used) = .ok (value, rest)

namespace Reads

variable {text text' : α → List Lexeme → Prop} {ahead ahead' : α → List Lexeme → Prop}

theorem congr {reader : Reader α} (reads : Reads reader text ahead)
    (same : ∀ value shown, text value shown ↔ text' value shown) :
    Reads reader text' ahead where
  sound := by
    intro stream value rest read
    obtain ⟨used, split, shown⟩ := reads.sound read
    exact ⟨used, split, (same _ _).mp shown⟩
  complete := by
    intro used value rest shown follows readable
    exact reads.complete ((same _ _).mpr shown) follows readable

theorem before {reader : Reader α} (reads : Reads reader text ahead)
    (enough : ∀ value shown, ahead' value shown → ahead value shown) :
    Reads reader text ahead' where
  sound := reads.sound
  complete := by
    intro used value rest shown follows readable
    exact reads.complete shown (enough _ _ follows) readable

/-- A reader that stops wherever its text ends does so in front of anything. -/
theorem wherever {reader : Reader α} (reads : Reads reader text) : Reads reader text ahead := by
  apply reads.before
  intro _ _ _
  trivial

theorem pure (value : α) :
    Reads (Pure.pure value : Reader α) (fun found shown => found = value ∧ shown = [])
      ahead where
  sound := by
    intro stream found rest read
    cases read
    exact ⟨[], rfl, rfl, rfl⟩
  complete := by
    intro used found rest found _ _
    obtain ⟨rfl, shown⟩ := found
    rw [List.map_eq_nil_iff] at shown
    subst shown
    rfl

theorem nothing {ahead : Unit → List Lexeme → Prop} :
    Reads (Pure.pure ()) (fun _ shown => shown = []) ahead := by
  apply (Reads.pure ()).congr
  intro _ _
  simp

/-- What a refusal reads is no text at all. -/
theorem refuseAt (location : Location) (reason : Reason)
    (none : ∀ value shown, ¬text value shown) :
    Reads (Reader.refuseAt location reason) text ahead where
  sound := by
    intro stream value rest read
    cases read
  complete := by
    intro used value rest shown
    exact (none _ _ shown).elim

theorem refuse (reason : Reason) (none : ∀ value shown, ¬text value shown) :
    Reads (Reader.refuse reason) text ahead where
  sound := by
    intro stream value rest read
    cases read
  complete := by
    intro used value rest shown
    exact (none _ _ shown).elim

/-- One reader behind another: what the first one asks of what is ahead must hold of the
second one's text and all that follows it. -/
theorem bindBefore {first : Reader α} {second : α → Reader β}
    {later : α → β → List Lexeme → Prop} {ahead' : β → List Lexeme → Prop}
    (early : Reads first text ahead) (late : ∀ value, Reads (second value) (later value) ahead')
    (fits : ∀ value result shown rest, later value result shown → ahead' result rest →
      ahead value (shown ++ rest)) :
    Reads (first >>= second)
      (fun result shown => ∃ value front back,
        shown = front ++ back ∧ text value front ∧ later value result back) ahead' where
  sound := by
    intro stream result rest read
    obtain ⟨value, between, readEarly, readLate⟩ := run_bind_eq_ok_iff.mp read
    obtain ⟨front, rfl, frontShown⟩ := early.sound readEarly
    obtain ⟨back, rfl, backShown⟩ := (late value).sound readLate
    exact ⟨front ++ back, by simp, value, _, _, List.map_append, frontShown, backShown⟩
  complete := by
    intro used result rest read follows readable
    obtain ⟨value, front, back, split, frontShown, backShown⟩ := read
    obtain ⟨frontTokens, backTokens, rfl, rfl, rfl⟩ := List.map_eq_append_iff.mp split
    rw [behind_append]
    refine run_bind_eq_ok_iff.mpr ⟨value, rest.behind backTokens, ?_, ?_⟩
    · refine early.complete frontShown ?_ (readable.behind backTokens)
      rw [lexemes_behind]
      exact fits _ _ _ _ backShown follows
    · exact (late value).complete backShown follows readable

/-- One reader behind another that stops wherever its text ends. -/
theorem bind {first : Reader α} {second : α → Reader β}
    {later : α → β → List Lexeme → Prop} {ahead' : β → List Lexeme → Prop}
    (early : Reads first text) (late : ∀ value, Reads (second value) (later value) ahead') :
    Reads (first >>= second)
      (fun result shown => ∃ value front back,
        shown = front ++ back ∧ text value front ∧ later value result back) ahead' :=
  early.bindBefore late fun _ _ _ _ _ _ => trivial

/-- Changing what was read changes nothing about the texts. -/
theorem map {reader : Reader α} {follow : List Lexeme → Prop} (change : α → β)
    (reads : Reads reader text fun _ => follow) :
    Reads (reader >>= fun value => Pure.pure (change value))
      (fun result shown => ∃ value, result = change value ∧ text value shown)
      (fun _ => follow) := by
  have unchanged : ∀ value, Reads (Pure.pure (change value) : Reader β)
      (fun result shown => result = change value ∧ shown = []) (fun _ => follow) := by
    intro value
    exact Reads.pure _
  refine (reads.bindBefore unchanged ?_).congr ?_
  · intro value result shown rest found follows
    obtain ⟨-, rfl⟩ := found
    exact follows
  · intro result shown
    constructor
    · intro read
      obtain ⟨value, front, back, rfl, shown, rfl, rfl⟩ := read
      exact ⟨value, rfl, by simpa using shown⟩
    · intro found
      obtain ⟨value, rfl, shown⟩ := found
      exact ⟨value, _, [], (List.append_nil _).symm, shown, rfl, rfl⟩

/-- Looking where the stream stands uses up nothing. -/
theorem location_bind {second : Location → Reader α}
    (reads : ∀ location, Reads (second location) text ahead) :
    Reads (location >>= second) text ahead where
  sound := by
    intro stream value rest read
    obtain ⟨place, between, readPlace, readLater⟩ := run_bind_eq_ok_iff.mp read
    cases readPlace
    exact (reads _).sound readLater
  complete := by
    intro used value rest shown follows readable
    exact run_bind_eq_ok_iff.mpr
      ⟨_, _, rfl, (reads _).complete shown follows readable⟩

theorem take (wanted : Wanted) (pick : Lexeme → Option (Except Reason α)) :
    Reads (Reader.take wanted pick)
      (fun value shown => ∃ lexeme, pick lexeme = some (.ok value) ∧ shown = [lexeme]) where
  sound := by
    intro stream value rest read
    obtain ⟨tokens, ending⟩ := stream
    change Reader.take wanted pick ⟨tokens, ending⟩ = _ at read
    unfold Reader.take at read
    cases tokens with
    | nil => cases read
    | cons token tokens =>
        simp only at read
        split at read
        · cases read
        · cases read
        · next picked =>
          unfold proceed at read
          cases checked : TokenStream.checked ⟨tokens, ending⟩ with
          | error refusal => simp [checked, Except.map] at read
          | ok stream =>
              obtain ⟨rfl, -⟩ := checked_eq_ok_iff.mp checked
              rw [checked] at read
              cases read
              exact ⟨[token], rfl, token.lexeme, picked, rfl⟩
  complete := by
    intro used value rest read _ readable
    obtain ⟨lexeme, picked, shown⟩ := read
    obtain ⟨token, rfl, rfl⟩ := List.map_eq_singleton_iff.mp shown
    change Reader.take wanted pick ⟨token :: rest.tokens, rest.ending⟩ = _
    have checked : TokenStream.checked rest = .ok rest :=
      checked_eq_ok_iff.mpr ⟨rfl, readable⟩
    simp [Reader.take, picked, proceed, checked, Except.map]

theorem expect (mark : Mark) (place : Place) :
    Reads (Reader.expect mark place) (fun _ shown => shown = [.mark mark]) := by
  apply (take _ _).congr
  intro value shown
  constructor
  · intro read
    obtain ⟨lexeme, picked, rfl⟩ := read
    split at picked
    · next same => rw [same]
    · cases picked
  · intro same
    subst same
    exact ⟨.mark mark, by simp, rfl⟩

/-- A mark that may be missing is found to be missing only where it is not ahead. -/
theorem takeMark? (mark : Mark) :
    Reads (Reader.takeMark? mark)
      (fun found shown => shown = if found then [.mark mark] else [])
      (fun found rest => found = false → rest.head? ≠ some (.mark mark)) where
  sound := by
    intro stream found rest read
    obtain ⟨tokens, ending⟩ := stream
    change Reader.takeMark? mark ⟨tokens, ending⟩ = _ at read
    unfold Reader.takeMark? at read
    cases tokens with
    | nil =>
        cases read
        exact ⟨[], rfl, rfl⟩
    | cons token tokens =>
        simp only at read
        split at read
        · next same =>
          unfold proceed at read
          cases checked : TokenStream.checked ⟨tokens, ending⟩ with
          | error refusal => simp [checked, Except.map] at read
          | ok stream =>
              obtain ⟨rfl, -⟩ := checked_eq_ok_iff.mp checked
              rw [checked] at read
              cases read
              exact ⟨[token], rfl, by simp [same]⟩
        · cases read
          exact ⟨[], rfl, rfl⟩
  complete := by
    intro used found rest shown missing readable
    cases found with
    | true =>
        obtain ⟨token, rfl, same⟩ := List.map_eq_singleton_iff.mp shown
        change Reader.takeMark? mark ⟨token :: rest.tokens, rest.ending⟩ = _
        have checked : TokenStream.checked rest = .ok rest :=
          checked_eq_ok_iff.mpr ⟨rfl, readable⟩
        simp [Reader.takeMark?, same, proceed, checked, Except.map]
    | false =>
        obtain rfl := List.map_eq_nil_iff.mp shown
        have absent := missing rfl
        obtain ⟨tokens, ending⟩ := rest
        change Reader.takeMark? mark ⟨tokens, ending⟩ = _
        cases tokens with
        | nil => rfl
        | cons token tokens =>
            have different : token.lexeme ≠ .mark mark := by
              intro same
              exact absent (by simp [lexemes, same])
            simp [Reader.takeMark?, different]

theorem takeMark?_run_of_absent {mark : Mark} {rest : TokenStream}
    (absent : rest.lexemes.head? ≠ some (.mark mark)) (readable : rest.Readable) :
    (Reader.takeMark? mark).run rest = .ok (false, rest) := by
  have nothing : ([] : List Token).map Token.lexeme = if false then [.mark mark] else [] := rfl
  apply (takeMark? mark).complete nothing _ readable
  intro _
  exact absent

theorem takeMark?_run_of_present {mark : Mark} {token : Token} {rest : TokenStream}
    (present : token.lexeme = .mark mark) (readable : rest.Readable) :
    (Reader.takeMark? mark).run (rest.behind [token]) = .ok (true, rest) := by
  have shown : [token].map Token.lexeme = if true then [.mark mark] else [] := by
    simp [present]
  apply (takeMark? mark).complete shown _ readable
  intro missing
  cases missing

/-- At the front of the same lexemes a reader reads one text only, and one value from it. -/
theorem unique {reader : Reader α} (reads : Reads reader text ahead) {value value' : α}
    {used used' rest rest' : List Lexeme} (shown : text value used) (follows : ahead value rest)
    (shown' : text value' used') (follows' : ahead value' rest')
    (same : used ++ rest = used' ++ rest') : value = value' ∧ used = used' ∧ rest = rest' := by
  let located : List Lexeme → List Token := fun text => text.map fun lexeme => ⟨lexeme, {}⟩
  have lexemes : ∀ text, (located text).map Token.lexeme = text := by
    intro text
    simp [located, Function.comp_def]
  have reads' : ∀ {value used rest}, text value used → ahead value rest →
      reader.run ⟨located (used ++ rest), ⟨none, {}⟩⟩ =
        .ok (value, ⟨located rest, ⟨none, {}⟩⟩) := by
    intro value used rest shown follows
    have split : (⟨located (used ++ rest), ⟨none, {}⟩⟩ : TokenStream) =
        TokenStream.behind (located used) ⟨located rest, ⟨none, {}⟩⟩ := by
      simp [TokenStream.behind, located]
    rw [split]
    apply reads.complete
    · rwa [lexemes]
    · rwa [TokenStream.lexemes, lexemes]
    · exact fun _ => rfl
  have read := reads' shown follows
  rw [same, reads' shown' follows'] at read
  simp only [Except.ok.injEq, Prod.mk.injEq, TokenStream.mk.injEq, and_true] at read
  obtain ⟨rfl, sameRest⟩ := read
  have restSame := congrArg (List.map Token.lexeme) sameRest
  rw [lexemes, lexemes] at restSame
  subst restSame
  exact ⟨rfl, List.append_cancel_right same, rfl⟩

end Reads

/-- A run of steps, one for each of the things. -/
inductive Steps (step : σ → ε → σ → Prop) : σ → List ε → σ → Prop where
  | nil {state : σ} : Steps step state [] state
  | cons {state next final : σ} {thing : ε} {things : List ε} :
      step state thing next →
      Steps step next things final →
      Steps step state (thing :: things) final

/-- What cannot go on with a value in front of it. -/
def Closed (rest : List Lexeme) : Prop :=
  rest.head? ≠ some (.mark .leftParen) ∧ rest.head? ≠ some (.mark .colon)

/-- The lexemes begin with one that opens a value. -/
def Opens (shown : List Lexeme) : Prop :=
  ∃ lexeme rest, shown = lexeme :: rest ∧ lexeme.opensValue = true

theorem Opens.append {shown : List Lexeme} (opens : Opens shown) (rest : List Lexeme) :
    Opens (shown ++ rest) := by
  obtain ⟨lexeme, more, rfl, opensValue⟩ := opens
  exact ⟨lexeme, more ++ rest, rfl, opensValue⟩

theorem Opens.readable {stream : TokenStream} (opens : Opens stream.lexemes) : stream.Readable := by
  intro empty
  obtain ⟨lexeme, rest, front, _⟩ := opens
  rw [lexemes, empty] at front
  cases front

/-- Where a value opens, nothing is closed. -/
theorem Opens.kind_ne {opening close : Mark} {stream : TokenStream} (opens : Opens stream.lexemes)
    (closing : opening.closing? = some close) : stream.kind ≠ .mark close := by
  obtain ⟨lexeme, rest, front, opensValue⟩ := opens
  rw [Ne, kind_eq_mark_iff, front, List.head?_cons, Option.some.injEq]
  rintro rfl
  cases opening <;> cases closing <;> cases opensValue

/-- `items` without the facts that its recursion needs. -/
theorem items_eq (close : Mark) (item : σ → Reader σ)
    (advances : ∀ state, (item state).Advances) (state : σ) (stream : TokenStream) :
    (items close item advances state).run stream =
      if stream.kind = .mark close then .ok (state, stream)
      else match (item state).run stream with
        | .error refusal => .error refusal
        | .ok (next, rest) =>
          match (takeMark? .comma).run rest with
          | .error refusal => .error refusal
          | .ok (false, last) => .ok (next, last)
          | .ok (true, more) => (items close item advances next).run more := by
  change items close item advances state stream = _
  rw [items]
  split
  · rfl
  · split
    · next read => rw [read]
    · next read =>
      simp only [read]
      split
      · next comma => simp only [comma]
      · next comma => simp only [comma]
      · next comma =>
        simp only [comma]
        rfl

namespace Reads

open Grammar

/-- A thing with a comma behind it is one step further in the listing. -/
theorem thing_behind {close opening : Mark} {item : σ → Reader σ}
    (advances : ∀ state, (item state).Advances) {text : ε → List Lexeme → Prop}
    {step : σ → ε → σ → Prop} (closing : opening.closing? = some close)
    (reads : ∀ state, Reads (item state)
      (fun next shown => ∃ thing, text thing shown ∧ step state thing next)
      (fun _ rest => Closed rest))
    (opens : ∀ thing shown, text thing shown → Opens shown)
    {state next : σ} {thing : ε} {used : List Token} {comma : Token} {rest : TokenStream}
    (shows : text thing (used.map Token.lexeme)) (stepped : step state thing next)
    (isComma : comma.lexeme = .mark .comma) (readable : rest.Readable) :
    (Reader.items close item advances state).run ((rest.behind [comma]).behind used) =
      (Reader.items close item advances next).run rest := by
  have read : (item state).run ((rest.behind [comma]).behind used) =
      .ok (next, rest.behind [comma]) := by
    apply (reads state).complete ⟨thing, shows, stepped⟩ _ (readable.behind _)
    simp [Closed, lexemes_behind, isComma]
  have opens : Opens ((rest.behind [comma]).behind used).lexemes := by
    rw [lexemes_behind]
    exact (opens _ _ shows).append _
  rw [items_eq, if_neg (opens.kind_ne closing), read]
  simp only [takeMark?_run_of_present isComma readable]

/-- A listing is read thing by thing, if each thing opens like a value. -/
theorem items {close opening : Mark} {item : σ → Reader σ}
    (advances : ∀ state, (item state).Advances) {text : ε → List Lexeme → Prop}
    {step : σ → ε → σ → Prop} (closing : opening.closing? = some close)
    (reads : ∀ state, Reads (item state)
      (fun next shown => ∃ thing, text thing shown ∧ step state thing next)
      (fun _ rest => Closed rest))
    (opens : ∀ thing shown, text thing shown → Opens shown) (state : σ) :
    Reads (Reader.items close item advances state)
      (fun final shown => ∃ things, Listing text things shown ∧ Steps step state things final)
      (fun _ rest => rest.head? = some (.mark close)) where
  sound := by
    intro stream final rest read
    change Reader.items close item advances state stream = _ at read
    fun_induction Reader.items close item advances state stream with
    | case1 state stream closed =>
        cases read
        exact ⟨[], rfl, [], .nil, .nil⟩
    | case2 => cases read
    | case3 => cases read
    | case4 state stream _ next middle readItem last comma =>
        cases read
        obtain ⟨used, rfl, thing, shown, stepped⟩ := (reads state).sound readItem
        obtain ⟨none, rfl, same⟩ := (takeMark? .comma).sound comma
        obtain rfl := List.map_eq_nil_iff.mp same
        exact ⟨used, rfl, [thing], .last shown, .cons stepped .nil⟩
    | case5 state stream _ next middle readItem more comma induction =>
        obtain ⟨used, rfl, thing, shown, stepped⟩ := (reads state).sound readItem
        obtain ⟨mark, rfl, same⟩ := (takeMark? .comma).sound comma
        obtain ⟨later, rfl, things, listed, steps⟩ := induction read
        refine ⟨used ++ (mark ++ later), by simp, thing :: things, ?_, .cons stepped steps⟩
        rw [List.map_append, List.map_append, same]
        exact .cons shown listed
  complete := by
    intro used final rest found closed readable
    obtain ⟨things, listed, steps⟩ := found
    have differs : close ≠ .comma ∧ close ≠ .leftParen ∧ close ≠ .colon := by
      cases opening <;> cases closing <;> decide
    -- The listing is taken apart from the front, as the reader goes.
    generalize shownUsed : used.map Token.lexeme = shown at listed
    induction listed generalizing state used with
    | nil =>
        obtain rfl := List.map_eq_nil_iff.mp shownUsed
        cases steps
        rw [behind_nil, items_eq, if_pos (kind_eq_mark_iff.mpr closed)]
    | @last thing shown shows =>
        subst shownUsed
        cases steps with
        | cons stepped done =>
            cases done
            have read : (item state).run (rest.behind used) = .ok (final, rest) := by
              apply (reads state).complete ⟨thing, shows, stepped⟩ _ readable
              simp [Closed, closed, differs]
            have absent : rest.lexemes.head? ≠ some (.mark .comma) := by
              simp [closed, differs]
            have opens : Opens (rest.behind used).lexemes := by
              rw [lexemes_behind]
              exact (opens _ _ shows).append _
            rw [items_eq, if_neg (opens.kind_ne closing), read]
            simp only [takeMark?_run_of_absent absent readable]
    | @cons thing things shown others shows listed induction =>
        cases steps with
        | @cons _ next _ _ _ stepped steps =>
            obtain ⟨usedHere, usedLater, rfl, rfl, splitLater⟩ := List.map_eq_append_iff.mp shownUsed
            obtain ⟨comma, later, rfl, same, rfl⟩ := List.map_eq_cons_iff.mp splitLater
            have again := thing_behind advances closing reads opens shows stepped same
              (readable.behind later)
            rw [← List.singleton_append, behind_append, behind_append, again]
            exact induction next steps rfl

/-- A listing with its closing mark and what is read behind it. -/
theorem closedItems {close opening : Mark} {item : σ → Reader σ}
    (advances : ∀ state, (item state).Advances) {text : ε → List Lexeme → Prop}
    {step : σ → ε → σ → Prop} {second : σ → Reader α} {later : σ → α → List Lexeme → Prop}
    {ahead : α → List Lexeme → Prop} (closing : opening.closing? = some close)
    (reads : ∀ state, Reads (item state)
      (fun next shown => ∃ thing, text thing shown ∧ step state thing next)
      (fun _ rest => Closed rest))
    (opens : ∀ thing shown, text thing shown → Opens shown) (state : σ) (place : Place)
    (late : ∀ final, Reads (second final) (later final) ahead) :
    Reads (do
        let final ← Reader.items close item advances state
        Reader.expect close place
        second final)
      (fun result shown => ∃ things final inner back, shown = inner ++ .mark close :: back ∧
        Listing text things inner ∧ Steps step state things final ∧ later final result back)
      ahead := by
  refine ((items advances closing reads opens state).bindBefore
    (fun final => (expect close place).bind fun _ => late final) ?_).congr ?_
  · intro _ result shown rest behindClose _
    obtain ⟨_, _, back, rfl, rfl, _⟩ := behindClose
    rfl
  · intro result shown
    constructor
    · intro read
      obtain ⟨final, inner, _, rfl, ⟨things, listed, steps⟩, _, _, back, rfl, rfl, shown⟩ := read
      exact ⟨things, final, inner, back, rfl, listed, steps, shown⟩
    · intro read
      obtain ⟨things, final, inner, back, rfl, listed, steps, shown⟩ := read
      exact ⟨final, inner, .mark close :: back, rfl, ⟨things, listed, steps⟩, (),
        [.mark close], back, rfl, rfl, shown⟩

end Reads

end Reader

end OpcodeCatalog.Source

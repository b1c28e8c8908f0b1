import OpcodeCatalog.Source.Refusal

/-!
# Readers

A reader takes tokens from the front of a stream or refuses the source.  A
lexical fault is told as soon as it comes to the front, before anything that
could be said of the tokens used up so far.  Readers that always use up a token
can be repeated, which is all the recursion that catalogs need.
-/

namespace OpcodeCatalog.Source

abbrev Reader := StateT TokenStream (Except Refusal)

/-- Refuses the stream if a lexical fault stands at its front. -/
def TokenStream.checked (stream : TokenStream) : Except Refusal TokenStream :=
  match stream.tokens, stream.ending.fault with
  | [], some fault => .error ⟨.lexical fault, stream.ending.location⟩
  | _, _ => .ok stream

namespace Reader

def refuseAt (location : Location) (reason : Reason) : Reader α :=
  throw ⟨reason, location⟩

/-- Refuses the source at the front of the stream. -/
def refuse (reason : Reason) : Reader α := do
  refuseAt (← get).location reason

def location : Reader Location := do
  return (← get).location

/-- Goes on with a value behind the token at the front. -/
def proceed (value : α) (tokens : List Token) (ending : Ending) :
    Except Refusal (α × TokenStream) :=
  (TokenStream.checked ⟨tokens, ending⟩).map (value, ·)

/-- Uses up the token at the front if `pick` makes something of it. -/
def take (wanted : Wanted) (pick : Lexeme → Option (Except Reason α)) : Reader α := fun stream =>
  let unexpected := .error ⟨.unexpected wanted stream.kind, stream.location⟩
  match stream.tokens with
  | [] => unexpected
  | token :: tokens =>
    match pick token.lexeme with
    | none => unexpected
    | some (.error reason) => .error ⟨reason, token.location⟩
    | some (.ok value) => proceed value tokens stream.ending

def expect (mark : Mark) (place : Place) : Reader Unit :=
  take (.mark mark place) fun lexeme => if lexeme = .mark mark then some (.ok ()) else none

/-- Uses up a mark if it stands at the front, and tells whether it did. -/
def takeMark? (mark : Mark) : Reader Bool := fun stream =>
  match stream.tokens with
  | [] => .ok (false, stream)
  | token :: tokens =>
    if token.lexeme = .mark mark then proceed true tokens stream.ending
    else .ok (false, stream)

/-- What reading leaves is never longer than what it was given. -/
def Keeps (reader : Reader α) : Prop :=
  ∀ stream value rest, reader.run stream = .ok (value, rest) →
    rest.tokens.length ≤ stream.tokens.length

/-- Reading uses up at least one token. -/
def Advances (reader : Reader α) : Prop :=
  ∀ stream value rest, reader.run stream = .ok (value, rest) →
    rest.tokens.length < stream.tokens.length

theorem run_bind_eq_ok_iff {first : Reader α} {second : α → Reader β}
    {stream rest : TokenStream} {value : β} :
    (first >>= second).run stream = .ok (value, rest) ↔
      ∃ middle between, first.run stream = .ok (middle, between) ∧
        (second middle).run between = .ok (value, rest) := by
  rw [StateT.run_bind]
  cases first.run stream with
  | error refusal => simp [bind, Except.bind]
  | ok result =>
    constructor
    · intro read
      exact ⟨result.1, result.2, rfl, read⟩
    · intro found
      obtain ⟨_, _, early, late⟩ := found
      cases early
      exact late

theorem Advances.keeps {reader : Reader α} (advances : reader.Advances) : reader.Keeps :=
  fun _ _ _ read => Nat.le_of_lt (advances _ _ _ read)

theorem keeps_pure (value : α) : (pure value : Reader α).Keeps := by
  intro stream _ rest read
  cases read
  exact Nat.le_refl _

theorem advances_refuseAt (location : Location) (reason : Reason) :
    (refuseAt location reason : Reader α).Advances := by
  intro stream _ rest read
  cases read

theorem keeps_get : (get : Reader TokenStream).Keeps := by
  intro stream _ rest read
  cases read
  exact Nat.le_refl _

theorem Keeps.bind {first : Reader α} {second : α → Reader β} (keeps : first.Keeps)
    (later : ∀ value, (second value).Keeps) : (first >>= second).Keeps := by
  intro stream _ rest read
  obtain ⟨_, _, early, late⟩ := run_bind_eq_ok_iff.mp read
  exact Nat.le_trans (later _ _ _ _ late) (keeps _ _ _ early)

theorem Advances.bind {first : Reader α} {second : α → Reader β} (advances : first.Advances)
    (later : ∀ value, (second value).Keeps) : (first >>= second).Advances := by
  intro stream _ rest read
  obtain ⟨_, _, early, late⟩ := run_bind_eq_ok_iff.mp read
  exact Nat.lt_of_le_of_lt (later _ _ _ _ late) (advances _ _ _ early)

theorem Keeps.bind_advances {first : Reader α} {second : α → Reader β} (keeps : first.Keeps)
    (later : ∀ value, (second value).Advances) : (first >>= second).Advances := by
  intro stream _ rest read
  obtain ⟨_, _, early, late⟩ := run_bind_eq_ok_iff.mp read
  exact Nat.lt_of_lt_of_le (later _ _ _ _ late) (keeps _ _ _ early)

theorem advances_refuse (reason : Reason) : (refuse reason : Reader α).Advances :=
  keeps_get.bind_advances fun _ => advances_refuseAt _ _

theorem keeps_location : location.Keeps :=
  keeps_get.bind fun _ => keeps_pure _

theorem tokens_of_proceed {value result : α} {tokens : List Token} {ending : Ending}
    {rest : TokenStream} (proceeds : proceed value tokens ending = .ok (result, rest)) :
    rest.tokens = tokens := by
  unfold proceed TokenStream.checked at proceeds
  split at proceeds <;> cases proceeds
  rfl

theorem advances_take (wanted : Wanted) (pick : Lexeme → Option (Except Reason α)) :
    (take wanted pick).Advances := by
  intro stream value rest read
  change take wanted pick stream = _ at read
  unfold take at read
  match front : stream.tokens with
  | [] => simp [front] at read
  | token :: tokens =>
    simp only [front] at read
    split at read
    · cases read
    · cases read
    · rw [tokens_of_proceed read]
      exact Nat.lt_succ_self _

theorem advances_expect (mark : Mark) (place : Place) : (expect mark place).Advances :=
  advances_take _ _

theorem keeps_takeMark? (mark : Mark) : (takeMark? mark).Keeps := by
  intro stream value rest read
  change takeMark? mark stream = _ at read
  unfold takeMark? at read
  match front : stream.tokens with
  | [] =>
    simp only [front] at read
    cases read
    simp [front]
  | token :: tokens =>
    simp only [front] at read
    split at read
    · rw [tokens_of_proceed read]
      exact Nat.le_succ _
    · cases read
      simp [front]

/-- Reads items with commas between them until the closing mark stands at the
front, or until no comma follows an item.  A last comma is allowed. -/
def items (close : Mark) (item : σ → Reader σ) (advances : ∀ state, (item state).Advances)
    (state : σ) : Reader σ := fun stream =>
  if stream.kind = .mark close then .ok (state, stream)
  else
    match _read : (item state).run stream with
    | .error refusal => .error refusal
    | .ok (next, rest) =>
      match _comma : (takeMark? .comma).run rest with
      | .error refusal => .error refusal
      | .ok (false, last) => .ok (next, last)
      | .ok (true, more) => items close item advances next more
termination_by stream => stream.tokens.length
decreasing_by
  exact Nat.lt_of_le_of_lt (keeps_takeMark? _ _ _ _ (by assumption))
    (advances _ _ _ _ (by assumption))

theorem keeps_items (close : Mark) (item : σ → Reader σ)
    (advances : ∀ state, (item state).Advances) (state : σ) :
    (items close item advances state).Keeps := by
  intro stream value rest read
  change items close item advances state stream = _ at read
  fun_induction items close item advances state stream with
  | case1 => cases read; exact Nat.le_refl _
  | case2 => cases read
  | case3 => cases read
  | case4 state stream _ next middle item last comma =>
    cases read
    exact Nat.le_trans (keeps_takeMark? _ _ _ _ comma) (Nat.le_of_lt (advances _ _ _ _ item))
  | case5 state stream _ next middle item more comma induction =>
    exact Nat.le_trans (induction read)
      (Nat.le_trans (keeps_takeMark? _ _ _ _ comma) (Nat.le_of_lt (advances _ _ _ _ item)))

end Reader

end OpcodeCatalog.Source

import OpcodeCatalog.Proofs.Acceptance
import OpcodeCatalog.Proofs.AlikeReaders
import OpcodeCatalog.Proofs.Lexing

/-!
# Tokens in other places

Where tokens stand has no say in what is read from them.  A reader only hands the
places on, so of tokens that are moved it reads the same values, and what it
refuses it refuses for the same reason, at the moved place.  In particular the
number of a source's file comes back in its refusal and changes nothing else.
-/

namespace OpcodeCatalog

/-- The same place in another file. -/
def Location.inFile (file : UInt32) (location : Location) : Location :=
  { location with file }

namespace Source

section Moved

variable (move : Location → Location)

def Token.moved (token : Token) : Token :=
  { token with location := move token.location }

def Ending.moved (ending : Ending) : Ending :=
  { ending with location := move ending.location }

def Reading.moved : Reading → Reading
  | .token found => .token (found.moved move)
  | .ending last => .ending (last.moved move)

def TokenStream.moved (stream : TokenStream) : TokenStream :=
  ⟨stream.tokens.map (Token.moved move), stream.ending.moved move⟩

def Refusal.moved (refusal : Refusal) : Refusal :=
  { refusal with location := move refusal.location }

end Moved

variable {move : Location → Location}

namespace TokenStream

theorem kind_moved (stream : TokenStream) : (stream.moved move).kind = stream.kind := by
  obtain ⟨tokens, ending⟩ := stream
  cases tokens <;> rfl

theorem location_moved (stream : TokenStream) :
    (stream.moved move).location = move stream.location := by
  obtain ⟨tokens, ending⟩ := stream
  cases tokens <;> rfl

theorem checked_moved (stream : TokenStream) :
    (stream.moved move).checked =
      (stream.checked.map (moved move)).mapError (Refusal.moved move) := by
  obtain ⟨tokens, fault, place⟩ := stream
  cases tokens with
  | cons token tokens => rfl
  | nil => cases fault <;> rfl

end TokenStream

namespace Reader

/-- What a reader comes to, with all places in it moved. -/
def movedResult (move : Location → Location) (result : Except Refusal (α × TokenStream)) :
    Except Refusal (α × TokenStream) :=
  (result.map fun (value, rest) => (value, rest.moved move)).mapError (Refusal.moved move)

theorem movedResult_ok (value : α) (rest : TokenStream) :
    movedResult move (.ok (value, rest)) = .ok (value, rest.moved move) := rfl

theorem movedResult_error (refusal : Refusal) :
    movedResult move (.error refusal : Except Refusal (α × TokenStream)) =
      .error (refusal.moved move) := rfl

/-- Of moved tokens, `other` reads what `reader` reads of them where they stand. -/
def Moves (move : Location → Location) (reader other : Reader α) : Prop :=
  ∀ stream, other.run (stream.moved move) = movedResult move (reader.run stream)

theorem proceed_moved (value : α) (tokens : List Token) (ending : Ending) :
    proceed value (tokens.map (Token.moved move)) (ending.moved move) =
      movedResult move (proceed value tokens ending) := by
  have checked := @TokenStream.checked_moved move ⟨tokens, ending⟩
  unfold proceed
  change Except.map _ (TokenStream.checked (TokenStream.moved move ⟨tokens, ending⟩)) = _
  rw [checked]
  cases TokenStream.checked ⟨tokens, ending⟩ <;> rfl

namespace Moves

variable {first first' : Reader α} {second second' : α → Reader β}

theorem pure (value : α) : Moves move (Pure.pure value) (Pure.pure value) := by
  intro stream
  rfl

theorem refuseAt (place : Location) (reason : Reason) :
    Moves move (Reader.refuseAt place reason : Reader α)
      (Reader.refuseAt (move place) reason) := by
  intro stream
  rfl

theorem bind (early : Moves move first first')
    (late : ∀ value, Moves move (second value) (second' value)) :
    Moves move (first >>= second) (first' >>= second') := by
  intro stream
  rw [StateT.run_bind, StateT.run_bind, early stream]
  cases first.run stream with
  | error refusal => rfl
  | ok result => exact late result.1 result.2

/-- The place that a reader looks up is the moved one. -/
theorem location_bind {second second' : Location → Reader α}
    (late : ∀ place, Moves move (second place) (second' (move place))) :
    Moves move (location >>= second) (location >>= second') := by
  intro stream
  have read := late stream.location stream
  rw [← @TokenStream.location_moved move] at read
  exact read

theorem refuse (reason : Reason) :
    Moves move (Reader.refuse reason : Reader α) (Reader.refuse reason) := by
  intro stream
  change (Reader.refuseAt (stream.moved move).location reason).run (stream.moved move) = _
  rw [TokenStream.location_moved]
  rfl

theorem take (wanted : Wanted) (pick : Lexeme → Option (Except Reason α)) :
    Moves move (Reader.take wanted pick) (Reader.take wanted pick) := by
  intro stream
  change Reader.take wanted pick (stream.moved move) =
    movedResult move (Reader.take wanted pick stream)
  unfold Reader.take
  rw [TokenStream.kind_moved, TokenStream.location_moved]
  obtain ⟨tokens, ending⟩ := stream
  cases tokens with
  | nil => rfl
  | cons token tokens =>
      simp only [TokenStream.moved, List.map_cons, Token.moved]
      cases pick token.lexeme with
      | none => rfl
      | some picked =>
          cases picked with
          | error reason => rfl
          | ok value => exact proceed_moved value tokens ending

theorem takeMark? (mark : Mark) :
    Moves move (Reader.takeMark? mark) (Reader.takeMark? mark) := by
  intro stream
  change Reader.takeMark? mark (stream.moved move) =
    movedResult move (Reader.takeMark? mark stream)
  unfold Reader.takeMark?
  obtain ⟨tokens, ending⟩ := stream
  cases tokens with
  | nil => rfl
  | cons token tokens =>
      simp only [TokenStream.moved, List.map_cons, Token.moved]
      split
      · exact proceed_moved true tokens ending
      · rfl

theorem run {reader other : Reader α} {stream : TokenStream}
    {result : Except Refusal (α × TokenStream)} (moves : Moves move reader other)
    (read : reader.run stream = result) :
    other.run (stream.moved move) = movedResult move result := by
  rw [moves stream, read]

/-- The recursion is that of `items`, which the moved tokens follow step by step. -/
theorem items {close : Mark} {item : σ → Reader σ} (advances : ∀ state, (item state).Advances)
    (moves : ∀ state, Moves move (item state) (item state)) (state : σ) :
    Moves move (Reader.items close item advances state)
      (Reader.items close item advances state) := by
  intro stream
  change _ = movedResult move (Reader.items close item advances state stream)
  fun_induction Reader.items close item advances state stream with
  | case1 state stream closed =>
      rw [items_eq, TokenStream.kind_moved, if_pos closed]
      rfl
  | case2 state stream isOpen refusal read =>
      rw [items_eq, TokenStream.kind_moved, if_neg isOpen, (moves state).run read]
      rfl
  | case3 state stream isOpen next rest read refusal comma =>
      rw [items_eq, TokenStream.kind_moved, if_neg isOpen, (moves state).run read]
      simp only [movedResult_ok, (takeMark? .comma).run comma, movedResult_error]
  | case4 state stream isOpen next rest read last comma =>
      rw [items_eq, TokenStream.kind_moved, if_neg isOpen, (moves state).run read]
      simp only [movedResult_ok, (takeMark? .comma).run comma]
  | case5 state stream isOpen next rest read more comma induction =>
      rw [items_eq, TokenStream.kind_moved, if_neg isOpen, (moves state).run read]
      simp only [movedResult_ok, (takeMark? .comma).run comma]
      exact induction

theorem endOfInput : Moves move Reader.endOfInput Reader.endOfInput := by
  intro stream
  change (if (stream.moved move).kind ≠ .endOfInput then Reader.refuse .trailingContent
    else Pure.pure ()).run (stream.moved move) = _
  rw [TokenStream.kind_moved]
  change _ = movedResult move ((if stream.kind ≠ .endOfInput then Reader.refuse .trailingContent
    else Pure.pure ()).run stream)
  split
  · exact refuse _ stream
  · exact pure () stream

end Moves

/-- Readers that are alike read the same of tokens that are moved. -/
theorem Alike.moves {reader other : Reader α} (alike : Alike move reader other) :
    Moves move reader other := by
  induction alike with
  | pure value => exact .pure value
  | refuseAt place reason => exact .refuseAt place reason
  | refuse reason => exact .refuse reason
  | take wanted pick => exact .take wanted pick
  | takeMark? mark => exact .takeMark? mark
  | endOfInput => exact .endOfInput
  | bind _ _ early late => exact .bind early late
  | location_bind _ late => exact .location_bind late
  | items advances _ state moves => exact .items advances moves state

end Reader

/-- Of moved tokens the same instructions are read, or they are refused at the moved place. -/
theorem TokenStream.instructions_moved (stream : TokenStream) :
    (stream.moved move).instructions = stream.instructions.mapError (Refusal.moved move) := by
  unfold instructions
  rw [checked_moved]
  cases stream.checked with
  | error refusal => rfl
  | ok stream =>
      have read := (@Reader.alike_catalog move).moves stream
      change (Reader.catalog.run (stream.moved move)).bind _ =
        ((Reader.catalog.run stream).bind _).mapError _
      rw [read]
      cases Reader.catalog.run stream <;> rfl

namespace Scanner

/-- The scanner of the same text in another file. -/
def inFile (file : UInt32) (scanner : Scanner) : Scanner :=
  { scanner with file }

theorem next_inFile (file : UInt32) (scanner : Scanner) :
    (scanner.inFile file).next =
      (scanner.next.1.moved (Location.inFile file), scanner.next.2.inFile file) := by
  cases failed : scanner.failed with
  | true => simp only [next, inFile, failed, if_true]; rfl
  | false =>
      cases width : Gap.width scanner.rest with
      | none => simp only [next, inFile, failed, width]; rfl
      | some gap =>
          cases front : scanner.rest.drop gap with
          | nil => simp only [next, inFile, failed, width, skip, front]; rfl
          | cons first rest =>
              cases read : (lexeme first rest).value <;>
              · simp only [next, inFile, failed, width, skip, front, read]
                rfl

theorem run_inFile (file : UInt32) (scanner : Scanner) :
    (scanner.inFile file).run.1 = scanner.run.1.moved (Location.inFile file) := by
  induction scanner using Scanner.run.induct with
  | case1 scanner ending after read =>
      have moved := next_inFile file scanner
      rw [read] at moved
      rw [run_of_ending read, run_of_ending moved]
      rfl
  | case2 scanner token after read _ _ _ induction =>
      have moved := next_inFile file scanner
      rw [read] at moved
      rw [run_of_token read, run_of_token moved, induction]
      rfl

end Scanner

/-- The number of a file comes back in the refusal of its source, and changes nothing else. -/
theorem instructions_inFile (file other : UInt32) (source : Bytes) :
    instructions other source =
      (instructions file source).mapError (Refusal.moved (Location.inFile other)) := by
  have moved : TokenStream.ofSource other source =
      (TokenStream.ofSource file source).moved (Location.inFile other) :=
    (Scanner.ofSource file source).run_inFile other
  unfold instructions
  rw [moved, TokenStream.instructions_moved]

end Source

end OpcodeCatalog

import OpcodeCatalog.Proofs.CatalogAcceptance
import OpcodeCatalog.Proofs.Messages
import OpcodeCatalog.Proofs.MovedTokens
import OpcodeCatalog.Proofs.RecordedReaders
import OpcodeCatalog.Proofs.TokenPlaces

/-!
# Where sources are refused

A refusal tells of one of the tokens of its source, or of how these end: readers
only hand on the places that they find, so a place that moves nothing they find
moves no refusal.  Each of these places is in the file of the source, at a line
and a column that were counted from one.  What a run over the source has recorded
when it gives up is this refusal.
-/

namespace OpcodeCatalog

theorem Finding.message_malformedSource (detail : Bytes) :
    (malformedSource detail).diagnostic.message =
      ascii "malformed game database: " ++ detail := by
  change FindingKind.malformedSource.message [(ascii "detail", detail)] = _
  rw [FindingKind.message_eq]
  exact congrArg _ (List.append_nil detail)

namespace Source

theorem Refusal.diagnostic_eq (refusal : Refusal) :
    refusal.diagnostic =
      ⟨.error, ascii "malformed game database: " ++ refusal.reason.message, refusal.location,
        ascii "B1002"⟩ := by
  rw [← Finding.message_malformedSource]
  rfl

namespace TokenStream

/-- The places of the tokens, and the one where they end. -/
def places (stream : TokenStream) : List Location :=
  stream.tokens.map Token.location ++ [stream.ending.location]

theorem moved_eq_self {move : Location → Location} {stream : TokenStream}
    (fixes : ∀ place ∈ stream.places, move place = place) : stream.moved move = stream := by
  obtain ⟨tokens, ending⟩ := stream
  have tokensStay : tokens.map (Token.moved move) = tokens := by
    rw [← List.map_id tokens, List.map_map]
    apply List.map_congr_left
    intro token member
    have stays := fixes token.location (List.mem_append_left _ (List.mem_map_of_mem member))
    change token.moved move = token
    rw [Token.moved, stays]
  have endingStays := fixes ending.location (List.mem_append_right _ List.mem_cons_self)
  rw [moved, tokensStay, Ending.moved, endingStays]

/-- A stream is refused at one of its places: moving all others moves no refusal. -/
theorem location_mem_places {stream : TokenStream} {refusal : Refusal}
    (refused : stream.instructions = .error refusal) : refusal.location ∈ stream.places := by
  by_contra elsewhere
  let below (place : Location) : Location := { place with line := place.line + 1 }
  let move (place : Location) : Location := if place ∈ stream.places then place else below place
  have fixes : stream.moved move = stream := by
    apply moved_eq_self
    intro place member
    exact if_pos member
  have moved := @instructions_moved move stream
  rw [fixes, refused] at moved
  injection moved with same
  have stays : refusal.location = below refusal.location :=
    (congrArg Refusal.location same).trans (if_neg elsewhere)
  have line := congrArg (UInt32.toNat ∘ Location.line) stays
  have bound := refusal.location.line.toNat_lt
  simp only [Function.comp_apply, below, UInt32.toNat_add, UInt32.reduceToNat] at line
  omega

end TokenStream

namespace Scanner

/-- What a scanner hands out next is located behind bytes that it has skipped. -/
theorem next_cases (scanner : Scanner) :
    (∃ fault gap, scanner.next.1 = .ending ⟨fault, (scanner.skip gap).location⟩) ∨
      ∃ found gap width, scanner.next =
        (.token ⟨found, (scanner.skip gap).location⟩, scanner.skip width) := by
  cases failed : scanner.failed with
  | true =>
      refine .inl ⟨none, 0, ?_⟩
      rw [next, failed]
      rfl
  | false =>
      cases skipped : Gap.width scanner.rest with
      | none =>
          refine .inl ⟨some .unterminatedComment, 0, ?_⟩
          simp only [next, failed, skipped]
          rfl
      | some gap =>
          cases front : (scanner.skip gap).rest with
          | nil =>
              refine .inl ⟨none, gap, ?_⟩
              simp only [next, failed, skipped, front, Bool.false_eq_true, if_false]
          | cons first rest =>
              cases read : (lexeme first rest).value with
              | error fault =>
                  refine .inl ⟨some fault, gap, ?_⟩
                  simp only [next, failed, skipped, front, read, fail, Bool.false_eq_true, if_false]
              | ok found =>
                  refine .inr ⟨found, gap, gap + (lexeme first rest).width, ?_⟩
                  simp only [next, failed, skipped, front, read, skip_skip, Bool.false_eq_true,
                    if_false]

theorem exists_skip_of_mem_places {scanner : Scanner} {place : Location}
    (member : place ∈ scanner.run.1.places) : ∃ width, place = (scanner.skip width).location := by
  induction scanner using Scanner.run.induct with
  | case1 scanner ending after read =>
      rw [run_of_ending read, TokenStream.places, List.map_nil, List.nil_append,
        List.mem_singleton] at member
      rcases scanner.next_cases with ⟨fault, gap, ended⟩ | ⟨found, gap, width, handed⟩
      · rw [read] at ended
        cases ended
        exact ⟨gap, member⟩
      · rw [read] at handed
        cases handed
  | case2 scanner token after read _ _ _ induction =>
      rcases scanner.next_cases with ⟨fault, gap, ended⟩ | ⟨found, gap, width, handed⟩
      · rw [read] at ended
        cases ended
      · rw [read] at handed
        cases handed
        rw [run_of_token read, TokenStream.places, TokenStream.behind, List.singleton_append,
          List.map_cons, List.cons_append, List.mem_cons] at member
        rcases member with rfl | later
        · exact ⟨gap, rfl⟩
        · obtain ⟨more, rfl⟩ := induction later
          exact ⟨width + more, by rw [skip_skip]⟩

end Scanner

/-- Why a source is refused, if it is. -/
def refusal? (file : UInt32) (source : Bytes) : Option Refusal :=
  match instructions file source with
  | .ok _ => none
  | .error refusal => some refusal

theorem refusal?_eq_some_iff {file : UInt32} {source : Bytes} {refusal : Refusal} :
    refusal? file source = some refusal ↔ instructions file source = .error refusal := by
  unfold refusal?
  cases instructions file source with
  | ok list => exact ⟨nofun, nofun⟩
  | error other => rw [Option.some.injEq, Except.error.injEq]

/-- The places of a short source are in its file, with lines and columns that did not wrap. -/
theorem counted_of_mem_places {file : UInt32} {source : Bytes} (short : source.length < 2 ^ 32 - 1)
    {place : Location} (member : place ∈ (TokenStream.ofSource file source).places) :
    place.file = file ∧ 1 ≤ place.line ∧ 1 ≤ place.column := by
  obtain ⟨width, rfl⟩ := Scanner.exists_skip_of_mem_places member
  have shorter : (source.take width).length < 2 ^ 32 - 1 :=
    Nat.lt_of_le_of_lt (List.length_take_le' _ _) short
  have stands := (Scanner.StandsBehind.ofSource file source).skip width
  obtain ⟨file, line, column⟩ := stands.located shorter
  refine ⟨file, ?_, ?_⟩
  · apply UInt32.le_iff_toNat_le.mpr
    rw [line]
    exact Nat.le_add_right 1 _
  · apply UInt32.le_iff_toNat_le.mpr
    rw [column]
    exact Nat.le_add_right 1 _

/-- A source is read to its end with nothing recorded, and there is no fault in it, or reading gives
up and what it has recorded by then is the one diagnostic.  What is fetched on the way comes first
among the tokens and their ending, and nothing is left out; a fault in it is what the diagnostic
tells.  That has its place among the tokens and their ending.  The number of the file comes back in
that place and changes nothing else. -/
theorem refusals_recorded_in_place (file : UInt32) {source : Bytes}
    (short : source.length < 2 ^ 32 - 1) :
    let stream := TokenStream.ofSource file source
    let outcome := (instructions file source).mapError Refusal.diagnostic
    let run := Recorder.parse file source
    (∀ list, run.1 = some list →
      run.2.fetched = stream.readings ∧ run.2.recorded = none ∧ outcome = .ok list ∧
        stream.ending.fault = none) ∧
      (run.1 = none →
        ∃ refusal, run.2.recorded = some refusal ∧ outcome = .error refusal.diagnostic) ∧
      run.2.fetched <+: stream.readings ∧
      (∀ fault place, .ending ⟨some fault, place⟩ ∈ run.2.fetched →
        outcome = .error ⟨.error, ascii "malformed game database: " ++ fault.message, place,
          ascii "B1002"⟩) ∧
      (∀ diagnostic, outcome = .error diagnostic →
        diagnostic.severity = .error ∧ diagnostic.code = ascii "B1002" ∧
          diagnostic.location ∈ stream.places ∧ diagnostic.location.file = file ∧
          1 ≤ diagnostic.location.line ∧ 1 ≤ diagnostic.location.column) ∧
      ∀ other, (instructions other source).mapError Refusal.diagnostic =
        outcome.mapError fun diagnostic =>
          { diagnostic with location := diagnostic.location.inFile other } := by
  intro stream outcome run
  refine ⟨?_, ?_, Recorder.fetched_parse_isPrefix file source, ?_, ?_, ?_⟩
  · intro list wentOn
    obtain ⟨fetched, unrecorded, read⟩ := Recorder.read_of_parse wentOn
    refine ⟨fetched, unrecorded, ?_, (TokenStream.instructions_eq_ok_iff.mp read).1⟩
    simp only [outcome, read, Except.mapError]
  · intro gaveUp
    obtain ⟨refusal, recorded, refused⟩ := Recorder.recorded_of_parse gaveUp
    refine ⟨refusal, recorded, ?_⟩
    simp only [outcome, refused, Except.mapError]
  · intro fault place fetched
    obtain ⟨_, refused⟩ := Recorder.recorded_of_fault fetched
    simp only [outcome, refused, Except.mapError, Refusal.diagnostic_eq, Reason.message]
  · intro diagnostic refused
    cases read : instructions file source with
    | ok list =>
        simp only [outcome, read] at refused
        cases refused
    | error refusal =>
        simp only [outcome, read] at refused
        cases refused
        have member := TokenStream.location_mem_places read
        exact ⟨rfl, rfl, member, counted_of_mem_places short member⟩
  · intro other
    simp only [outcome]
    rw [instructions_inFile file other]
    cases instructions file source <;> rfl

/-- A fault that is fetched with the colon behind the name of a repeated field. -/
theorem refusals_recorded_in_place_of_strayByte :
    let source := ascii "(functions:[],\nfunctions:@"
    let run := Recorder.parse 7 source
    let diagnostic : Diagnostic :=
      ⟨.error, ascii "malformed game database: unexpected character '@'", ⟨7, 2, 11⟩,
        ascii "B1002"⟩
    source.length < 2 ^ 32 - 1 ∧
      run.1 = none ∧ run.2.recorded.isSome ∧
      .ending ⟨some (.unexpectedByte '@'.toUInt8), ⟨7, 2, 11⟩⟩ ∈ run.2.fetched ∧
      (instructions 7 source).mapError Refusal.diagnostic = .error diagnostic ∧
      diagnostic.location ∈ (TokenStream.ofSource 7 source).places ∧
      (instructions 9 source).mapError Refusal.diagnostic =
        .error { diagnostic with location := ⟨9, 2, 11⟩ } := by
  intro source run diagnostic
  have short : source.length < 2 ^ 32 - 1 := by decide
  have gaveUp : run.1 = none := Option.isNone_iff_eq_none.mp (by decide +kernel)
  have member : .ending ⟨some (.unexpectedByte '@'.toUInt8), ⟨7, 2, 11⟩⟩ ∈ run.2.fetched := by
    decide +kernel
  obtain ⟨_, recorded, _, told, sound, moved⟩ := refusals_recorded_in_place 7 short
  obtain ⟨refusal, kept, _⟩ := recorded gaveUp
  have refused : (instructions 7 source).mapError Refusal.diagnostic = .error diagnostic := by
    rw [told _ _ member]
    exact congrArg Except.error (by decide +kernel)
  obtain ⟨_, _, placed, _⟩ := sound diagnostic refused
  refine ⟨short, gaveUp, Option.isSome_of_eq_some kept, member, refused, placed, ?_⟩
  rw [moved 9, refused]
  rfl

end Source

end OpcodeCatalog

import OpcodeCatalog.Proofs.Recorder
import OpcodeCatalog.Source.Document

/-!
# Recorded readers

Each reader of catalogs has a routine that follows it, put together from the
routines of its parts as the reader is from these.  Reading a whole source in
this way either goes on to its end, with nothing recorded, or gives up with what
the source is refused for.
-/

namespace OpcodeCatalog.Source

/-- A routine that follows the reader. -/
structure Recorded {α : Type} (reader : Reader α) where
  routine : Routine α
  follows : Follows reader routine

namespace Recorded

variable {α β σ : Type}

def pure (value : α) : Recorded (Pure.pure value : Reader α) :=
  ⟨.pure value, .pure value⟩

def bind {first : Reader α} {second : α → Reader β} (early : Recorded first)
    (late : ∀ value, Recorded (second value)) : Recorded (first >>= second) where
  routine := early.routine.bind fun value => (late value).routine
  follows := early.follows.bind fun value => (late value).follows

def refuseAt (place : Location) (reason : Reason) :
    Recorded (Reader.refuseAt place reason : Reader α) :=
  ⟨.failAt place reason, .refuseAt place reason⟩

def refuse (reason : Reason) : Recorded (Reader.refuse reason : Reader α) :=
  ⟨.fail reason, .refuse reason⟩

def location : Recorded Reader.location :=
  ⟨.location, .location⟩

def take (wanted : Wanted) (pick : Lexeme → Option (Except Reason α)) :
    Recorded (Reader.take wanted pick) :=
  ⟨.take wanted pick, .take wanted pick⟩

def takeMark? (mark : Mark) : Recorded (Reader.takeMark? mark) :=
  ⟨.takeMark? mark, .takeMark? mark⟩

def endOfInput : Recorded Reader.endOfInput :=
  ⟨.endOfInput, .endOfInput⟩

def items {close : Mark} {item : σ → Reader σ} (advances : ∀ state, (item state).Advances)
    (recorded : ∀ state, Recorded (item state)) (state : σ) :
    Recorded (Reader.items close item advances state) where
  routine := .items close (fun state => (recorded state).routine)
    (fun state => (recorded state).follows.advances (advances state)) state
  follows := .items advances (fun state => (recorded state).follows) state

def ite {condition : Prop} [decision : Decidable condition] {first second : Reader α}
    (yes : Recorded first) (no : Recorded second) :
    Recorded (if condition then first else second) where
  routine := if condition then yes.routine else no.routine
  follows := by
    split
    · exact yes.follows
    · exact no.follows

/-! ## The readers of catalogs -/

def expect (mark : Mark) (place : Place) : Recorded (Reader.expect mark place) :=
  take _ _

def integer (type : IntegerType) (field : Bytes) : Recorded (Reader.integer type field) :=
  take _ _

def unsigned (field : Bytes) : Recorded (Reader.unsigned field) :=
  (integer _ _).bind fun _ => pure _

def signed (field : Bytes) : Recorded (Reader.signed field) :=
  (integer _ _).bind fun _ => pure _

def string (field : Bytes) : Recorded (Reader.string field) :=
  take _ _

def codeBlock : Recorded Reader.codeBlock :=
  take _ _

def openStruct (name : StructName) : Recorded (Reader.openStruct name) :=
  (take _ _).bind fun _ => ite (expect _ _) (pure ())

def fieldName : Recorded Reader.fieldName :=
  location.bind fun _ => (take _ _).bind fun _ => (expect _ _).bind fun _ => pure _

def optionalComma : Recorded (discard (Reader.takeMark? .comma)) :=
  (takeMark? .comma).bind fun _ => pure _

def slotValue : Recorded Reader.slotValue :=
  (expect _ _).bind fun _ => (unsigned _).bind fun _ => (expect _ _).bind fun _ =>
    (signed _).bind fun _ => optionalComma.bind fun _ => (expect _ _).bind fun _ => pure _

def slotName : Recorded Reader.slotName :=
  (expect _ _).bind fun _ => (unsigned _).bind fun _ => (expect _ _).bind fun _ =>
    (string _).bind fun _ => optionalComma.bind fun _ => (expect _ _).bind fun _ => pure _

def enter (values : NamedValues) (place : Location) (entry : NamedValue) :
    Recorded (Reader.enter values place entry) where
  routine :=
    match values.insert entry with
    | (.inserted, values) => .pure values
    | (.duplicateValue, _) => .failAt place (.valueAlreadyNamed entry.value)
    | (.duplicateName, _) => .failAt place (.nameAlreadyBound entry.name)
  follows := by
    rw [Reader.enter]
    cases values.insert entry with
    | mk outcome values =>
        cases outcome with
        | inserted => exact .pure values
        | duplicateValue => exact .refuseAt _ _
        | duplicateName => exact .refuseAt _ _

def namedValue (values : NamedValues) : Recorded (Reader.namedValue values) :=
  location.bind fun _ => slotValue.bind fun _ => (expect _ _).bind fun _ =>
    slotName.bind fun _ => enter _ _ _

def namedValues : Recorded Reader.namedValues :=
  (expect _ _).bind fun _ => (items _ namedValue _).bind fun _ => (expect _ _).bind fun _ => pure _

section Skipping

variable {inner : Reader Unit} (advances : inner.Advances) (recorded : Recorded inner)

def skipItem : Recorded (Reader.skipItem inner) :=
  recorded.bind fun _ => (takeMark? .colon).bind fun _ => ite recorded (pure ())

def skipItems (close : Mark) : Recorded (Reader.skipItems inner advances close) :=
  (items _ (fun _ => skipItem recorded) ()).bind fun _ => expect _ _

def skipBehindWord : Recorded (Reader.skipBehindWord inner advances) :=
  (takeMark? .leftParen).bind fun _ => ite (skipItems advances recorded .rightParen) (pure ())

def skipBehind (front : Lexeme) : Recorded (Reader.skipBehind inner advances front) where
  routine :=
    match front with
    | .mark symbol =>
      match symbol.closing? with
      | some close => (skipItems advances recorded close).routine
      | none => .pure ()
    | .identifier _ => (skipBehindWord advances recorded).routine
    | _ => .pure ()
  follows := by
    cases front with
    | mark symbol =>
        simp only [Reader.skipBehind]
        cases symbol.closing? with
        | some close => exact (skipItems advances recorded close).follows
        | none => exact .pure ()
    | identifier text => exact (skipBehindWord advances recorded).follows
    | integer value => exact .pure ()
    | string text => exact .pure ()

end Skipping

def skipValueWithin : (depth : Nat) → Recorded (Reader.skipValueWithin depth).1
  | 0 => refuse _
  | depth + 1 =>
    (take _ _).bind (skipBehind (Reader.skipValueWithin depth).2 (skipValueWithin depth))

def skipValue : Recorded Reader.skipValue :=
  skipValueWithin Reader.maxDepth

def functionFieldValue (draft : FunctionDraft) (field : FunctionField) :
    Recorded (Reader.functionFieldValue draft field) :=
  match field with
  | .id => (unsigned _).bind fun _ => pure _
  | .size => (unsigned _).bind fun _ => pure _
  | .args => (string _).bind fun _ => pure _
  | .name => (string _).bind fun _ => pure _
  | .codeBlock => codeBlock.bind fun _ => pure _
  | .namedValues => namedValues.bind fun _ => pure _

def namedFieldValue (draft : FunctionDraft) (found : Reader.FieldName) :
    Recorded (Reader.namedFieldValue draft found) where
  routine :=
    match FunctionField.ofSpelling? found.name with
    | none => skipValue.routine.bind fun _ => .pure draft
    | some field =>
      if draft.has field then .failAt found.location (.duplicateField found.name)
      else (functionFieldValue draft field).routine
  follows := by
    rw [Reader.namedFieldValue]
    cases FunctionField.ofSpelling? found.name with
    | none => exact skipValue.follows.bind fun _ => .pure draft
    | some field => exact (ite (refuseAt _ _) (functionFieldValue draft field)).follows

def functionField (draft : FunctionDraft) : Recorded (Reader.functionField draft) :=
  fieldName.bind (namedFieldValue draft)

def completed (place : Location) (draft : FunctionDraft) :
    Recorded (Reader.completed place draft) where
  routine :=
    match draft.complete with
    | .ok instruction => .pure instruction
    | .error field => .failAt place (.missingField field.spelling .function)
  follows := by
    rw [Reader.completed]
    cases draft.complete with
    | ok instruction => exact .pure instruction
    | error field => exact .refuseAt _ _

def function : Recorded Reader.function :=
  location.bind fun place => (openStruct _).bind fun _ => (items _ functionField _).bind fun draft =>
    (expect _ _).bind fun _ => completed place draft

def functions : Recorded Reader.functions :=
  (expect _ _).bind fun _ => (items _ (fun _ => function.bind fun _ => pure _) _).bind fun _ =>
    (expect _ _).bind fun _ => pure _

def catalogField (list : Option (Array Instruction)) : Recorded (Reader.catalogField list) :=
  fieldName.bind fun _ => ite (ite (refuseAt _ _) (functions.bind fun _ => pure _))
    (skipValue.bind fun _ => pure _)

def listed (place : Location) (list : Option (Array Instruction)) :
    Recorded (Reader.listed place list) :=
  match list with
  | none => refuseAt place _
  | some _ => pure _

def catalogBody : Recorded Reader.catalogBody :=
  (openStruct _).bind fun _ => (items _ catalogField _).bind fun list => location.bind fun place =>
    (expect _ _).bind fun _ => listed place list

def catalog : Recorded Reader.catalog :=
  catalogBody.bind fun _ => endOfInput.bind fun _ => pure _

/-- Behind a whole catalog nothing is ahead but the end of the source. -/
theorem kind_of_catalog {recorder after : Recorder} {list : List Instruction}
    (ran : catalog.routine recorder = (some list, after)) :
    after.current.kind = .endOfInput := by
  obtain ⟨_, between, _, late⟩ := Routine.bind_eq_some ran
  obtain ⟨_, _, atEnd, done⟩ := Routine.bind_eq_some late
  obtain ⟨rfl, last⟩ := Routine.endOfInput_eq_some atEnd
  cases done
  exact last

end Recorded

namespace Recorder

/-- Reads a source from its start.  If a fault is fetched there, nothing else is done. -/
def parse (file : UInt32) (source : Bytes) : Option (List Instruction) × Recorder :=
  let first := ofSource file source
  if first.recorded.isSome then (none, first) else Recorded.catalog.routine first

variable {file : UInt32} {source : Bytes}

theorem ahead_ofSource : (ofSource file source).ahead = TokenStream.ofSource file source :=
  ahead_fetch _ _ _

theorem recorded_ofSource :
    (ofSource file source).recorded = (ofSource file source).current.refusal? :=
  Option.none_or

/-- Where a fault is fetched first, the run is over. -/
theorem parse_of_fault {refusal : Refusal}
    (faulty : (ofSource file source).current.refusal? = some refusal) :
    parse file source = (none, ofSource file source) ∧
      instructions file source = .error refusal := by
  constructor
  · rw [parse, recorded_ofSource, faulty]
    rfl
  · have checked := (ofSource file source).checked_ahead
    rw [faulty, ahead_ofSource] at checked
    unfold instructions TokenStream.instructions
    rw [checked]
    rfl

/-- Where none is, the run comes to what the reader of catalogs does. -/
theorem parse_of_sound (sound : (ofSource file source).current.refusal? = none) :
    parse file source = Recorded.catalog.routine (ofSource file source) ∧
      instructions file source =
        (Reader.catalog.run (ofSource file source).ahead).map Prod.fst := by
  constructor
  · rw [parse, recorded_ofSource, sound]
    rfl
  · have checked := (ofSource file source).checked_ahead
    rw [sound] at checked
    rw [← TokenStream.instructions_of_checked checked, ahead_ofSource]
    rfl

theorem exists_passes_parse (file : UInt32) (source : Bytes) :
    ∃ used, (ofSource file source).Passes used (parse file source).2 := by
  cases first : (ofSource file source).current.refusal? with
  | none =>
      rw [(parse_of_sound first).1]
      exact (Recorded.catalog.follows _).exists_passes
  | some refusal =>
      rw [(parse_of_fault first).1]
      exact ⟨[], .nothing _⟩

/-- What a run fetches are the first of the readings of its source. -/
theorem fetched_parse_isPrefix (file : UInt32) (source : Bytes) :
    (parse file source).2.fetched <+: (TokenStream.ofSource file source).readings := by
  obtain ⟨used, passes⟩ := exists_passes_parse file source
  rw [← ahead_ofSource]
  exact passes.fetched_isPrefix rfl

/-- A run that goes on to the end has fetched everything and recorded nothing. -/
theorem read_of_parse {list : List Instruction} (wentOn : (parse file source).1 = some list) :
    (parse file source).2.fetched = (TokenStream.ofSource file source).readings ∧
      (parse file source).2.recorded = none ∧ instructions file source = .ok list := by
  cases first : (ofSource file source).current.refusal? with
  | some refusal =>
      rw [(parse_of_fault first).1] at wentOn
      cases wentOn
  | none =>
      obtain ⟨parsed, declared⟩ := parse_of_sound first
      have came := Recorded.catalog.follows (ofSource file source)
      rw [parsed] at wentOn ⊢
      rw [declared]
      generalize ran : Recorded.catalog.routine (ofSource file source) = result at came wentOn ⊢
      obtain ⟨_, after⟩ := result
      cases wentOn
      obtain ⟨place, ended⟩ := Reading.exists_ending_of_kind (Recorded.kind_of_catalog ran)
      obtain ⟨read, unchanged⟩ := came.read_of_wentOn (by rw [ended]; rfl)
      obtain ⟨used, passes⟩ := came.exists_passes
      rw [read, ← ahead_ofSource]
      exact ⟨passes.fetched_eq_readings rfl ended,
        unchanged.trans (recorded_ofSource.trans first), rfl⟩

/-- A run that gives up has recorded what its source is refused for. -/
theorem recorded_of_parse (gaveUp : (parse file source).1 = none) :
    ∃ refusal, (parse file source).2.recorded = some refusal ∧
      instructions file source = .error refusal := by
  cases first : (ofSource file source).current.refusal? with
  | some refusal =>
      obtain ⟨parsed, declared⟩ := parse_of_fault first
      rw [parsed]
      exact ⟨refusal, recorded_ofSource.trans first, declared⟩
  | none =>
      obtain ⟨parsed, declared⟩ := parse_of_sound first
      have came := Recorded.catalog.follows (ofSource file source)
      rw [parsed] at gaveUp ⊢
      rw [declared]
      generalize Recorded.catalog.routine (ofSource file source) = result at came gaveUp ⊢
      obtain ⟨_, after⟩ := result
      cases gaveUp
      obtain ⟨refusal, refused, recorded⟩ := came.recorded_of_gaveUp
      rw [recorded_ofSource, first, Option.none_or] at recorded
      rw [refused]
      exact ⟨refusal, recorded, rfl⟩

/-- A fault that a run has fetched is what it has recorded, and the source is refused for it. -/
theorem recorded_of_fault {fault : LexicalFault} {place : Location}
    (member : .ending ⟨some fault, place⟩ ∈ (parse file source).2.fetched) :
    (parse file source).2.recorded = some ⟨.lexical fault, place⟩ ∧
      instructions file source = .error ⟨.lexical fault, place⟩ := by
  obtain ⟨used, passes⟩ := exists_passes_parse file source
  have last := passes.current_of_mem_fetched rfl member
  have faulty : (parse file source).2.current.refusal? = some ⟨.lexical fault, place⟩ := by
    rw [last]
    rfl
  cases first : (ofSource file source).current.refusal? with
  | some refusal =>
      obtain ⟨parsed, declared⟩ := parse_of_fault first
      rw [parsed, first] at faulty
      cases faulty
      rw [parsed]
      exact ⟨recorded_ofSource.trans first, declared⟩
  | none =>
      obtain ⟨parsed, declared⟩ := parse_of_sound first
      have came := Recorded.catalog.follows (ofSource file source)
      rw [← parsed] at came
      obtain ⟨refused, recorded⟩ := came.refused_of_fault first faulty
      rw [recorded_ofSource, first, Option.none_or] at recorded
      rw [declared, refused]
      exact ⟨recorded, rfl⟩

end Recorder

end OpcodeCatalog.Source

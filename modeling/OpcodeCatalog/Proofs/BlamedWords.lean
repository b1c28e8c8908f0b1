import OpcodeCatalog.Proofs.FaultyConstructs
import OpcodeCatalog.Proofs.LookAhead

/-!
# What refusals are made of

A refusal names marks and fields that readers know, words of its source, and the
fault in which the source ends.  It has nothing else from the source, except the name
of an entry that is bound already, which may be any text.  What holds of all words of
a source and of its fault therefore holds of what a refusal says.
-/

namespace OpcodeCatalog.Source

/-- The fields that readers know by name. -/
def knownFields : List Bytes :=
  functionsField :: FunctionField.all.map FunctionField.spelling ++
    [ascii "slot", ascii "value", ascii "name"]

section Matter

variable (words : Bytes → Prop) (faults : LexicalFault → Prop)

def Lexeme.MadeOf (lexeme : Lexeme) : Prop :=
  ∀ text, lexeme = .identifier text → words text

/-- Whatever words the tokens are, and whatever fault they end in. -/
structure TokenStream.MadeOf (stream : TokenStream) : Prop where
  tokens : ∀ token ∈ stream.tokens, token.lexeme.MadeOf words
  ending : ∀ fault, stream.ending.fault = some fault → faults fault

inductive Wanted.MadeOf : Wanted → Prop where
  | mark {mark : Mark} {place : Place} :
      (∀ name, place = .afterField name → words name) → MadeOf (.mark mark place)
  | fieldName : MadeOf .fieldName
  | integer {field : Bytes} : field ∈ knownFields → MadeOf (.integer field)
  | string {field : Bytes} : field ∈ knownFields → MadeOf (.string field)
  | codeBlock : MadeOf .codeBlock
  | value : MadeOf .value

/-- The reasons that name nothing but such words, such faults and what is known. -/
inductive Reason.MadeOf : Reason → Prop where
  | lexical {fault : LexicalFault} : faults fault → MadeOf (.lexical fault)
  | unexpected {wanted : Wanted} {found : TokenKind} :
      wanted.MadeOf words → MadeOf (.unexpected wanted found)
  | wrongStruct {wanted : StructName} {found : Bytes} :
      words found → MadeOf (.wrongStruct wanted found)
  | duplicateField {name : Bytes} : words name → MadeOf (.duplicateField name)
  | missingField {name : Bytes} {struct : StructName} :
      name ∈ knownFields → MadeOf (.missingField name struct)
  | trailingContent : MadeOf .trailingContent
  | outOfRange {value : Int} {field : Bytes} {type : IntegerType} :
      field ∈ knownFields → MadeOf (.outOfRange value field type)
  | unknownCodeBlock {found : Bytes} : words found → MadeOf (.unknownCodeBlock found)
  | valueAlreadyNamed {value : SlotValue} : MadeOf (.valueAlreadyNamed value)
  | nameAlreadyBound {name : SlotName} : MadeOf (.nameAlreadyBound name)
  | nestedTooDeeply : MadeOf .nestedTooDeeply

/-- An outcome of reading that tells of nothing but such words and faults. -/
def MadeOutcome (outcome : Except Refusal (α × TokenStream)) : Prop :=
  match outcome with
  | .ok (_, rest) => rest.MadeOf words faults
  | .error refusal => refusal.reason.MadeOf words faults

/-- Of a stream made of such words and faults, the reader tells nothing else. -/
def Reader.Blames (reader : Reader α) : Prop :=
  ∀ stream : TokenStream, stream.MadeOf words faults → MadeOutcome words faults (reader.run stream)

end Matter

variable {words : Bytes → Prop} {faults : LexicalFault → Prop}

theorem FunctionField.spelling_mem_knownFields (field : FunctionField) :
    field.spelling ∈ knownFields := by
  cases field <;> decide

theorem TokenStream.MadeOf.behind_iff {token : Token} {rest : TokenStream} :
    (rest.behind [token]).MadeOf words faults ↔
      token.lexeme.MadeOf words ∧ rest.MadeOf words faults := by
  constructor
  · intro made
    refine ⟨made.tokens token List.mem_cons_self, ?_, made.ending⟩
    intro later member
    exact made.tokens later (List.mem_cons_of_mem token member)
  · rintro ⟨first, made⟩
    refine ⟨?_, made.ending⟩
    intro later member
    rcases List.mem_cons.mp member with rfl | member
    · exact first
    · exact made.tokens later member

/-- Where a reader goes on, a fault may come to the front. -/
theorem TokenStream.MadeOf.proceeds {rest : TokenStream} (made : rest.MadeOf words faults)
    (value : α) : MadeOutcome words faults (rest.checked.map (value, ·)) := by
  unfold checked
  split
  · next ended => exact .lexical (made.ending _ ended)
  · exact made

namespace Reader

open TokenStream

namespace Blames

variable {stream rest : TokenStream} {value : α} {refusal : Refusal} {reader : Reader α}

theorem of_ok (blames : Blames words faults reader) (made : stream.MadeOf words faults)
    (read : reader.run stream = .ok (value, rest)) : rest.MadeOf words faults := by
  have outcome := blames stream made
  rwa [read] at outcome

theorem of_error (blames : Blames words faults reader) (made : stream.MadeOf words faults)
    (refused : reader.run stream = .error refusal) : refusal.reason.MadeOf words faults := by
  have outcome := blames stream made
  rwa [refused] at outcome

theorem pure (value : α) : Blames words faults (Pure.pure value : Reader α) := by
  intro stream made
  exact made

theorem refuseAt {place : Location} {reason : Reason} (madeOf : reason.MadeOf words faults) :
    Blames words faults (Reader.refuseAt place reason : Reader α) := by
  intro stream _
  exact madeOf

theorem refuse {reason : Reason} (madeOf : reason.MadeOf words faults) :
    Blames words faults (Reader.refuse reason : Reader α) := by
  intro stream _
  exact madeOf

theorem bind {first : Reader α} {second : α → Reader β} (early : Blames words faults first)
    (late : ∀ value, Blames words faults (second value)) :
    Blames words faults (first >>= second) := by
  intro stream made
  cases read : first.run stream with
  | error refusal =>
      rw [run_bind_of_error read]
      exact early.of_error made read
  | ok result =>
      rw [run_bind_of_ok read]
      exact late result.1 result.2 (early.of_ok made read)

theorem location_bind {second : Location → Reader α}
    (late : ∀ place, Blames words faults (second place)) :
    Blames words faults (location >>= second) := by
  intro stream made
  exact late stream.location stream made

theorem ite {condition : Prop} [Decidable condition] {first second : Reader α}
    (yes : Blames words faults first) (no : Blames words faults second) :
    Blames words faults (if condition then first else second) := by
  split
  · exact yes
  · exact no

/-- What is picked may be known to be a word, which matters for the readers behind. -/
theorem take_bind {wanted : Wanted} {pick : Lexeme → Option (Except Reason α)}
    {second : α → Reader β} (wants : wanted.MadeOf words)
    (refuses : ∀ lexeme reason, lexeme.MadeOf words → pick lexeme = some (.error reason) →
      reason.MadeOf words faults)
    (late : ∀ lexeme value, lexeme.MadeOf words → pick lexeme = some (.ok value) →
      Blames words faults (second value)) :
    Blames words faults (Reader.take wanted pick >>= second) := by
  intro stream made
  cases atFront : stream.front with
  | ending ending =>
      obtain rfl := front_eq_ending_iff.mp atFront
      exact .unexpected wants
  | token token =>
      obtain ⟨rest, rfl⟩ := front_eq_token_iff.mp atFront
      obtain ⟨first, madeRest⟩ := MadeOf.behind_iff.mp made
      have taken := LooksAhead.take_run_behind wanted pick token rest
      cases picked : pick token.lexeme with
      | none =>
          rw [picked] at taken
          rw [run_bind_of_error taken]
          exact .unexpected wants
      | some outcome =>
          cases outcome with
          | error reason =>
              rw [picked] at taken
              rw [run_bind_of_error taken]
              exact refuses _ _ first picked
          | ok value =>
              rw [picked] at taken
              have proceeds := madeRest.proceeds value
              cases checked : rest.checked with
              | error refusal =>
                  rw [checked] at taken proceeds
                  rw [run_bind_of_error taken]
                  exact proceeds
              | ok stream =>
                  rw [checked] at taken proceeds
                  rw [run_bind_of_ok taken]
                  exact late _ _ first picked stream proceeds

theorem take {wanted : Wanted} {pick : Lexeme → Option (Except Reason α)}
    (wants : wanted.MadeOf words)
    (refuses : ∀ lexeme reason, lexeme.MadeOf words → pick lexeme = some (.error reason) →
      reason.MadeOf words faults) :
    Blames words faults (Reader.take wanted pick) := by
  have taken := take_bind wants refuses fun _ value _ _ => Blames.pure value
  rwa [bind_pure] at taken

theorem expect (mark : Mark) {place : Place}
    (known : ∀ name, place = .afterField name → words name) :
    Blames words faults (Reader.expect mark place) := by
  apply take (.mark known)
  intro lexeme reason _ picked
  split at picked <;> cases picked

theorem takeMark? (mark : Mark) : Blames words faults (Reader.takeMark? mark) := by
  intro stream made
  cases atFront : stream.front with
  | ending ending =>
      obtain rfl := front_eq_ending_iff.mp atFront
      exact made
  | token token =>
      obtain ⟨rest, rfl⟩ := front_eq_token_iff.mp atFront
      rw [LooksAhead.takeMark?_run_behind]
      split
      · exact (MadeOf.behind_iff.mp made).2.proceeds true
      · exact made

theorem endOfInput : Blames words faults Reader.endOfInput := by
  intro stream made
  change MadeOutcome words faults
    ((if stream.kind ≠ .endOfInput then Reader.refuse .trailingContent else Pure.pure ()).run stream)
  split
  · exact .trailingContent
  · exact made

/-- The induction is on the tokens that are left, as in `LooksAhead.items`. -/
theorem items {close : Mark} {item : σ → Reader σ} {advances : ∀ state, (item state).Advances}
    (blames : ∀ state, Blames words faults (item state)) (state : σ) :
    Blames words faults (Reader.items close item advances state) := by
  intro stream made
  change MadeOutcome words faults (Reader.items close item advances state stream)
  fun_induction Reader.items close item advances state stream with
  | case1 => exact made
  | case2 state stream _ other read => exact (blames state).of_error made read
  | case3 state stream _ next rest read other comma =>
      exact (takeMark? .comma).of_error ((blames state).of_ok made read) comma
  | case4 state stream _ next rest read last comma =>
      exact (takeMark? .comma).of_ok ((blames state).of_ok made read) comma
  | case5 state stream _ next rest read more comma induction =>
      exact induction ((takeMark? .comma).of_ok ((blames state).of_ok made read) comma)

/-- The name of a field is a word. -/
theorem fieldName_bind {second : FieldName → Reader α}
    (late : ∀ name place, words name → Blames words faults (second ⟨name, place⟩)) :
    Blames words faults (fieldName >>= second) := by
  unfold fieldName
  simp only [bind_assoc, pure_bind]
  apply location_bind
  intro place
  apply take_bind .fieldName
  · intro lexeme reason _ picked
    cases lexeme <;> cases picked
  · intro lexeme name made picked
    cases lexeme <;> cases picked
    have word := made name rfl
    apply (expect .colon _).bind
    · intro _
      exact late name place word
    · rintro _ ⟨⟩
      exact word

end Blames

/-! ## The readers of catalogs -/

theorem blames_integer (type : IntegerType) {field : Bytes} (known : field ∈ knownFields) :
    Blames words faults (integer type field) := by
  apply Blames.take (.integer known)
  intro lexeme reason _ picked
  cases lexeme with
  | integer value =>
      simp only [Option.some.injEq] at picked
      split at picked
      · cases picked
      · cases picked
        exact .outOfRange known
  | _ => cases picked

theorem blames_unsigned {field : Bytes} (known : field ∈ knownFields) :
    Blames words faults (unsigned field) :=
  (blames_integer _ known).bind fun _ => .pure _

theorem blames_signed {field : Bytes} (known : field ∈ knownFields) :
    Blames words faults (signed field) :=
  (blames_integer _ known).bind fun _ => .pure _

theorem blames_string {field : Bytes} (known : field ∈ knownFields) :
    Blames words faults (string field) := by
  apply Blames.take (.string known)
  intro lexeme reason _ picked
  cases lexeme <;> cases picked

theorem blames_codeBlock : Blames words faults codeBlock := by
  apply Blames.take .codeBlock
  intro lexeme reason made picked
  cases lexeme with
  | identifier text =>
      simp only [Option.some.injEq] at picked
      split at picked
      · cases picked
      · cases picked
        exact .unknownCodeBlock (made text rfl)
  | _ => cases picked

theorem blames_openStruct (name : StructName) : Blames words faults (openStruct name) := by
  have opening : (Wanted.mark .leftParen (.openStruct name)).MadeOf words := .mark nofun
  apply Blames.bind
  · apply Blames.take opening
    intro lexeme reason made picked
    cases lexeme with
    | identifier text =>
        simp only [Option.some.injEq] at picked
        split at picked
        · cases picked
        · cases picked
          exact .wrongStruct (made text rfl)
    | mark symbol => cases symbol <;> cases picked
    | _ => cases picked
  · intro named
    exact .ite (.expect _ nofun) (.pure ())

theorem blames_optionalComma : Blames words faults (discard (takeMark? .comma)) :=
  (Blames.takeMark? _).bind fun _ => .pure _

theorem blames_slotValue : Blames words faults slotValue :=
  (Blames.expect _ nofun).bind fun _ => (blames_unsigned (by decide)).bind fun _ =>
    (Blames.expect _ nofun).bind fun _ => (blames_signed (by decide)).bind fun _ =>
      blames_optionalComma.bind fun _ => (Blames.expect _ nofun).bind fun _ => .pure _

theorem blames_slotName : Blames words faults slotName :=
  (Blames.expect _ nofun).bind fun _ => (blames_unsigned (by decide)).bind fun _ =>
    (Blames.expect _ nofun).bind fun _ => (blames_string (by decide)).bind fun _ =>
      blames_optionalComma.bind fun _ => (Blames.expect _ nofun).bind fun _ => .pure _

theorem blames_enter (values : NamedValues) (place : Location) (entry : NamedValue) :
    Blames words faults (enter values place entry) := by
  unfold enter
  split
  · exact .pure _
  · exact .refuseAt .valueAlreadyNamed
  · exact .refuseAt .nameAlreadyBound

theorem blames_namedValue (values : NamedValues) : Blames words faults (namedValue values) := by
  apply Blames.location_bind
  intro place
  exact blames_slotValue.bind fun _ => (Blames.expect _ nofun).bind fun _ =>
    blames_slotName.bind fun _ => blames_enter _ _ _

theorem blames_namedValues : Blames words faults namedValues :=
  (Blames.expect _ nofun).bind fun _ => (Blames.items blames_namedValue _).bind fun _ =>
    (Blames.expect _ nofun).bind fun _ => .pure _

section Skipping

variable {inner : Reader Unit} (advances : inner.Advances) (blames : Blames words faults inner)

include blames

theorem blames_skipItems (close : Mark) :
    Blames words faults (skipItems inner advances close) := by
  have item : Blames words faults (skipItem inner) :=
    blames.bind fun _ => (Blames.takeMark? _).bind fun _ => .ite blames (.pure ())
  exact (Blames.items (fun _ => item) ()).bind fun _ => .expect _ nofun

theorem blames_skipBehind (front : Lexeme) :
    Blames words faults (skipBehind inner advances front) := by
  unfold skipBehind
  split
  · split
    · exact blames_skipItems advances blames _
    · exact .pure ()
  · exact (Blames.takeMark? _).bind fun _ =>
      .ite (blames_skipItems advances blames _) (.pure ())
  · exact .pure ()

end Skipping

theorem blames_skipValue : Blames words faults skipValue := by
  have within : ∀ depth, Blames words faults (skipValueWithin depth).1 := by
    intro depth
    induction depth with
    | zero => exact .refuse .nestedTooDeeply
    | succ depth induction =>
        apply Blames.bind
        · apply Blames.take .value
          intro lexeme reason _ picked
          split at picked <;> cases picked
        · exact blames_skipBehind _ induction
  exact within maxDepth

theorem blames_functionFieldValue (draft : FunctionDraft) (field : FunctionField) :
    Blames words faults (functionFieldValue draft field) := by
  have known := field.spelling_mem_knownFields
  cases field with
  | id => exact (blames_unsigned known).bind fun _ => .pure _
  | size => exact (blames_unsigned known).bind fun _ => .pure _
  | args => exact (blames_string known).bind fun _ => .pure _
  | name => exact (blames_string known).bind fun _ => .pure _
  | codeBlock => exact blames_codeBlock.bind fun _ => .pure _
  | namedValues => exact blames_namedValues.bind fun _ => .pure _

theorem blames_functionField (draft : FunctionDraft) :
    Blames words faults (functionField draft) := by
  apply Blames.fieldName_bind
  intro name place word
  simp only [namedFieldValue]
  cases FunctionField.ofSpelling? name with
  | none => exact blames_skipValue.bind fun _ => .pure _
  | some field => exact .ite (.refuseAt (.duplicateField word)) (blames_functionFieldValue _ _)

theorem blames_completed (place : Location) (draft : FunctionDraft) :
    Blames words faults (completed place draft) := by
  unfold completed
  split
  · exact .pure _
  · exact .refuseAt (.missingField (FunctionField.spelling_mem_knownFields _))

theorem blames_function : Blames words faults function := by
  apply Blames.location_bind
  intro place
  exact (blames_openStruct _).bind fun _ => (Blames.items blames_functionField _).bind fun _ =>
    (Blames.expect _ nofun).bind fun _ => blames_completed _ _

theorem blames_functions : Blames words faults functions := by
  have blames : ∀ before : Array Instruction,
      Blames words faults (do return before.push (← function)) := by
    intro before
    exact blames_function.bind fun _ => .pure _
  exact (Blames.expect _ nofun).bind fun _ => (Blames.items blames _).bind fun _ =>
    (Blames.expect _ nofun).bind fun _ => .pure _

theorem blames_catalogField (list : Option (Array Instruction)) :
    Blames words faults (catalogField list) := by
  apply Blames.fieldName_bind
  intro name place word
  apply Blames.ite
  · exact .ite (.refuseAt (.duplicateField word)) (blames_functions.bind fun _ => .pure _)
  · exact blames_skipValue.bind fun _ => .pure _

theorem blames_listed (place : Location) (list : Option (Array Instruction)) :
    Blames words faults (listed place list) := by
  cases list with
  | none => exact .refuseAt (.missingField (by decide))
  | some instructions => exact .pure _

theorem blames_catalog : Blames words faults catalog := by
  have body : Blames words faults catalogBody := by
    apply (blames_openStruct _).bind
    intro _
    apply (Blames.items blames_catalogField _).bind
    intro list
    apply Blames.location_bind
    intro place
    exact (Blames.expect _ nofun).bind fun _ => blames_listed _ _
  exact body.bind fun _ => Blames.endOfInput.bind fun _ => .pure _

end Reader

/-- What a stream is refused for is made of its words and its fault. -/
theorem TokenStream.MadeOf.refused {stream : TokenStream} {refusal : Refusal}
    (made : stream.MadeOf words faults) (refused : stream.instructions = .error refusal) :
    refusal.reason.MadeOf words faults := by
  unfold instructions at refused
  have proceeds := made.proceeds ()
  cases checked : stream.checked with
  | error other =>
      rw [checked] at refused proceeds
      cases refused
      exact proceeds
  | ok passed =>
      rw [checked] at refused proceeds
      change (Reader.catalog.run passed).bind _ = _ at refused
      cases read : Reader.catalog.run passed with
      | error other =>
          rw [read] at refused
          cases refused
          exact Reader.blames_catalog.of_error proceeds read
      | ok result =>
          rw [read] at refused
          cases refused

/-! ## The words and the fault of a source -/

theorem Scanned.isWord {first : UInt8} {rest text : Bytes} {width : Nat}
    (scanned : Scanned first rest (.identifier text) width) : isWord text = true := by
  cases scanned with
  | word opensWord _ =>
      exact Bool.and_eq_true_iff.mpr ⟨opensWord, List.all_takeWhile⟩

/-- What the lexemes of a text can be, and what it can end in. -/
theorem lexed_madeOf (text : Bytes) :
    (∀ lexeme ∈ (lexed text).lexemes, lexeme.MadeOf fun word => isWord word = true) ∧
      ∀ fault, (lexed text).fault = some fault → ∃ construct, Malformed fault construct := by
  induction text using lexed.induct with
  | case1 text read =>
      rw [lexed_of_finished read]
      constructor
      · intro lexeme member
        cases member
      · intro fault ended
        cases ended
  | case2 text fault read =>
      rw [lexed_of_fault read]
      obtain ⟨gap, construct, _, _, malformed⟩ := front_eq_fault_iff.mp read
      constructor
      · intro lexeme member
        cases member
      · intro other ended
        cases ended
        exact ⟨construct, malformed⟩
  | case3 text found gap width read induction =>
      rw [lexed_of_lexeme read, Lexed.lexemes_behind]
      refine ⟨?_, induction.2⟩
      intro lexeme member
      rcases List.mem_cons.mp member with rfl | later
      · obtain ⟨_, _, _, _, scanned⟩ := front_eq_lexeme_iff.mp read
        rintro word rfl
        exact (lexeme_eq_ok_iff.mp scanned).isWord
      · exact induction.1 lexeme later

theorem TokenStream.madeOf_ofSource (file : UInt32) (source : Bytes) :
    (ofSource file source).MadeOf (fun word => isWord word = true)
      fun fault => ∃ construct, Malformed fault construct := by
  obtain ⟨words, faults⟩ := lexed_madeOf source
  constructor
  · intro token member
    apply words
    rw [← lexemes_ofSource file]
    exact List.mem_map_of_mem member
  · rw [fault_ofSource]
    exact faults

/-- The words in a refusal are words of letters, digits and underscores; what it calls malformed
is. -/
theorem madeOf_of_refused {file : UInt32} {source : Bytes} {refusal : Refusal}
    (refused : instructions file source = .error refusal) :
    refusal.reason.MadeOf (fun word => isWord word = true)
      fun fault => ∃ construct, Malformed fault construct :=
  (TokenStream.madeOf_ofSource file source).refused refused

end OpcodeCatalog.Source

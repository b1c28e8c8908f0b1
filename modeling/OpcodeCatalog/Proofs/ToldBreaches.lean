import OpcodeCatalog.Proofs.Breaches

/-!
# What tells of a breach

Most readers refuse a source for one lexeme that they did not want.  The few that
refuse it for a field that comes again, an entry that contradicts another one or a
field that is missing only do so behind a good beginning, so a source that is
refused for such a reason has the breach that it is refused for.
-/

namespace OpcodeCatalog.Source

/-- The reasons that only breaches have. -/
inductive Reason.TellsBreach : Reason → Prop where
  | duplicateField (name : Bytes) : TellsBreach (.duplicateField name)
  | missingField (name : Bytes) : TellsBreach (.missingField name .function)
  | valueAlreadyNamed (value : SlotValue) : TellsBreach (.valueAlreadyNamed value)
  | nameAlreadyBound (name : SlotName) : TellsBreach (.nameAlreadyBound name)

theorem Grammar.Breach.tells {front culprit : List Lexeme} {reason : Reason}
    (breach : Grammar.Breach front culprit reason) : reason.TellsBreach := by
  cases breach with
  | functionsAgain _ => exact .duplicateField _
  | fieldAgain _ _ => exact .duplicateField _
  | valueAgain _ _ _ => exact .valueAlreadyNamed _
  | nameAgain _ _ _ _ => exact .nameAlreadyBound _
  | fieldMissing _ _ _ _ _ => exact .missingField _

/-- A fault at the front is no breach. -/
theorem TokenStream.not_tells_of_checked {stream : TokenStream} {refusal : Refusal}
    (refused : stream.checked = .error refusal) : ¬ refusal.reason.TellsBreach := by
  unfold checked at refused
  split at refused
  · cases refused
    nofun
  · cases refused

namespace Reader

open Grammar TokenStream

/-! ## Readers that tell of none -/

theorem not_tells_of_proceeding {rest : TokenStream} {value : α} {refusal : Refusal}
    (refused : rest.checked.map (value, ·) = .error refusal) : ¬ refusal.reason.TellsBreach := by
  cases checked : rest.checked with
  | error fault =>
      rw [checked] at refused
      cases refused
      exact not_tells_of_checked checked
  | ok stream =>
      rw [checked] at refused
      cases refused

/-- Whatever the reader refuses a stream for, it is no breach. -/
def Harmless (reader : Reader α) : Prop :=
  ∀ stream refusal, reader.run stream = .error refusal → ¬ refusal.reason.TellsBreach

namespace Harmless

theorem pure (value : α) : Harmless (Pure.pure value : Reader α) := by
  intro stream refusal refused
  cases refused

theorem refuseAt {place : Location} {reason : Reason} (other : ¬ reason.TellsBreach) :
    Harmless (Reader.refuseAt place reason : Reader α) := by
  intro stream refusal refused
  cases refused
  exact other

theorem refuse {reason : Reason} (other : ¬ reason.TellsBreach) :
    Harmless (Reader.refuse reason : Reader α) := by
  intro stream refusal refused
  cases refused
  exact other

theorem bind {first : Reader α} {second : α → Reader β} (early : Harmless first)
    (late : ∀ value, Harmless (second value)) : Harmless (first >>= second) := by
  intro stream refusal refused
  rcases run_bind_eq_error_iff.mp refused with refused | ⟨value, rest, _, refused⟩
  · exact early stream refusal refused
  · exact late value rest refusal refused

theorem ite {condition : Prop} [Decidable condition] {first second : Reader α}
    (yes : Harmless first) (no : Harmless second) :
    Harmless (if condition then first else second) := by
  split
  · exact yes
  · exact no

theorem take {wanted : Wanted} {pick : Lexeme → Option (Except Reason α)}
    (other : ∀ lexeme reason, pick lexeme = some (.error reason) → ¬ reason.TellsBreach) :
    Harmless (Reader.take wanted pick) := by
  intro stream refusal refused
  cases atFront : stream.front with
  | ending ending =>
      obtain rfl := front_eq_ending_iff.mp atFront
      cases refused
      nofun
  | token token =>
      obtain ⟨rest, rfl⟩ := front_eq_token_iff.mp atFront
      rw [LooksAhead.take_run_behind] at refused
      split at refused
      · cases refused
        nofun
      · next picked =>
        cases refused
        exact other _ _ picked
      · exact not_tells_of_proceeding refused

theorem expect (mark : Mark) (place : Place) : Harmless (Reader.expect mark place) := by
  apply take
  intro lexeme reason picked
  split at picked <;> cases picked

theorem takeMark? (mark : Mark) : Harmless (Reader.takeMark? mark) := by
  intro stream refusal refused
  cases atFront : stream.front with
  | ending ending =>
      obtain rfl := front_eq_ending_iff.mp atFront
      cases refused
  | token token =>
      obtain ⟨rest, rfl⟩ := front_eq_token_iff.mp atFront
      rw [LooksAhead.takeMark?_run_behind] at refused
      split at refused
      · exact not_tells_of_proceeding refused
      · cases refused

/-- The induction is on the tokens that are left, as in `LooksAhead.items`. -/
theorem items {close : Mark} {item : σ → Reader σ} {advances : ∀ state, (item state).Advances}
    (harmless : ∀ state, Harmless (item state)) (state : σ) :
    Harmless (Reader.items close item advances state) := by
  intro stream refusal refused
  change Reader.items close item advances state stream = _ at refused
  fun_induction Reader.items close item advances state stream with
  | case1 => cases refused
  | case2 state stream _ other read =>
      cases refused
      exact harmless state stream _ read
  | case3 state stream _ next rest _ other comma =>
      cases refused
      exact takeMark? .comma rest _ comma
  | case4 => cases refused
  | case5 _ _ _ _ _ _ _ _ induction => exact induction refused

end Harmless

theorem harmless_integer (type : IntegerType) (field : Bytes) : Harmless (integer type field) := by
  apply Harmless.take
  intro lexeme reason picked
  cases lexeme with
  | integer value =>
      simp only [Option.some.injEq] at picked
      split at picked
      · cases picked
      · cases picked
        nofun
  | _ => cases picked

theorem harmless_unsigned (field : Bytes) : Harmless (unsigned field) :=
  (harmless_integer _ _).bind fun _ => .pure _

theorem harmless_signed (field : Bytes) : Harmless (signed field) :=
  (harmless_integer _ _).bind fun _ => .pure _

theorem harmless_string (field : Bytes) : Harmless (string field) := by
  apply Harmless.take
  intro lexeme reason picked
  cases lexeme <;> cases picked

theorem harmless_codeBlock : Harmless codeBlock := by
  apply Harmless.take
  intro lexeme reason picked
  cases lexeme with
  | identifier text =>
      simp only [Option.some.injEq] at picked
      split at picked
      · cases picked
      · cases picked
        nofun
  | _ => cases picked

theorem harmless_openStruct (name : StructName) : Harmless (openStruct name) := by
  apply Harmless.bind
  · apply Harmless.take
    intro lexeme reason picked
    cases lexeme with
    | identifier text =>
        simp only [Option.some.injEq] at picked
        split at picked
        · cases picked
        · cases picked
          nofun
    | mark symbol => cases symbol <;> cases picked
    | _ => cases picked
  · intro named
    exact .ite (.expect _ _) (.pure ())

theorem harmless_optionalComma : Harmless (discard (takeMark? .comma)) :=
  (Harmless.takeMark? _).bind fun _ => .pure _

theorem harmless_slotValue : Harmless slotValue :=
  (Harmless.expect _ _).bind fun _ => (harmless_unsigned _).bind fun _ =>
    (Harmless.expect _ _).bind fun _ => (harmless_signed _).bind fun _ =>
      harmless_optionalComma.bind fun _ => (Harmless.expect _ _).bind fun _ => .pure _

theorem harmless_slotName : Harmless slotName :=
  (Harmless.expect _ _).bind fun _ => (harmless_unsigned _).bind fun _ =>
    (Harmless.expect _ _).bind fun _ => (harmless_string _).bind fun _ =>
      harmless_optionalComma.bind fun _ => (Harmless.expect _ _).bind fun _ => .pure _

section Skipping

variable {inner : Reader Unit} (advances : inner.Advances) (harmless : Harmless inner)

include harmless

theorem harmless_skipItems (close : Mark) : Harmless (skipItems inner advances close) := by
  have item : Harmless (skipItem inner) :=
    harmless.bind fun _ => (Harmless.takeMark? _).bind fun _ => .ite harmless (.pure ())
  exact (Harmless.items (fun _ => item) ()).bind fun _ => .expect _ _

theorem harmless_skipBehind (front : Lexeme) : Harmless (skipBehind inner advances front) := by
  unfold skipBehind
  split
  · split
    · exact harmless_skipItems advances harmless _
    · exact .pure ()
  · exact (Harmless.takeMark? _).bind fun _ =>
      .ite (harmless_skipItems advances harmless _) (.pure ())
  · exact .pure ()

end Skipping

theorem harmless_skipValue : Harmless skipValue := by
  have within : ∀ depth, Harmless (skipValueWithin depth).1 := by
    intro depth
    induction depth with
    | zero => exact Harmless.refuse nofun
    | succ depth induction =>
        apply Harmless.bind
        · apply Harmless.take
          intro lexeme reason picked
          split at picked <;> cases picked
        · exact harmless_skipBehind _ induction
  exact within maxDepth

theorem harmless_listed (place : Location) (list : Option (Array Instruction)) :
    Harmless (listed place list) := by
  cases list with
  | none => exact Harmless.refuseAt nofun
  | some instructions => exact .pure _

theorem harmless_endOfInput : Harmless endOfInput := by
  intro stream refusal refused
  change (if stream.kind ≠ .endOfInput then Reader.refuse .trailingContent else Pure.pure ()).run
    stream = _ at refused
  split at refused
  · cases refused
    nofun
  · cases refused

/-! ## Readers that tell of breaches -/

/-- Where the reader refuses a stream for a breach, that is one behind the lexemes `front` and
those that stand in the stream. -/
def Tells (front : List Lexeme) (reader : Reader α) : Prop :=
  ∀ stream refusal, reader.run stream = .error refusal → refusal.reason.TellsBreach →
    ∃ used rest before culprit, stream = TokenStream.behind used rest ∧
      front ++ used.map Token.lexeme = before ++ culprit ∧
      Breach before culprit refusal.reason

theorem Harmless.tells {reader : Reader α} (harmless : Harmless reader) (front : List Lexeme) :
    Tells front reader := by
  intro stream refusal refused told
  exact (harmless stream refusal refused told).elim

namespace Tells

variable {front : List Lexeme}

theorem refuseAt {place : Location} {reason : Reason} {before culprit : List Lexeme}
    (split : front = before ++ culprit) (breach : Breach before culprit reason) :
    Tells front (Reader.refuseAt place reason : Reader α) := by
  intro stream refusal refused _
  cases refused
  exact ⟨[], stream, before, culprit, rfl, by rw [List.map_nil, List.append_nil, split], breach⟩

theorem bind {first : Reader α} {second : α → Reader β} {text : α → List Lexeme → Prop}
    {ahead : α → List Lexeme → Prop} (early : Tells front first) (reads : Reads first text ahead)
    (late : ∀ value shown, text value shown → Tells (front ++ shown) (second value)) :
    Tells front (first >>= second) := by
  intro stream refusal refused told
  rcases run_bind_eq_error_iff.mp refused with refusedEarly | ⟨value, rest, read, refusedLate⟩
  · exact early stream refusal refusedEarly told
  · obtain ⟨used, rfl, shown⟩ := reads.sound read
    obtain ⟨usedLater, last, before, culprit, rfl, split, breach⟩ :=
      late value _ shown rest refusal refusedLate told
    refine ⟨used ++ usedLater, last, before, culprit, (behind_append _ _ _).symm, ?_, breach⟩
    rw [List.map_append, ← List.append_assoc]
    exact split

theorem bind_harmless {first : Reader α} {second : α → Reader β} (early : Tells front first)
    (late : ∀ value, Harmless (second value)) : Tells front (first >>= second) := by
  intro stream refusal refused told
  rcases run_bind_eq_error_iff.mp refused with refused | ⟨value, rest, _, refused⟩
  · exact early stream refusal refused told
  · exact (late value rest refusal refused told).elim

theorem location_bind {second : Location → Reader α} (late : ∀ place, Tells front (second place)) :
    Tells front (location >>= second) := by
  intro stream refusal refused told
  have located : location.run stream = .ok (stream.location, stream) := rfl
  rw [run_bind_of_ok located] at refused
  exact late _ stream refusal refused told

theorem fieldName_bind {second : FieldName → Reader α}
    (late : ∀ found, Tells (front ++ [.identifier found.name, .mark .colon]) (second found)) :
    Tells front (fieldName >>= second) := by
  unfold fieldName
  simp only [bind_assoc, pure_bind]
  apply location_bind
  intro place
  refine bind (Harmless.tells (Harmless.take ?_) front) (Reads.take _ _) ?_
  · intro lexeme reason picked
    cases lexeme <;> cases picked
  · rintro name _ ⟨lexeme, picked, rfl⟩
    cases lexeme <;> cases picked
    apply bind ((Harmless.expect _ _).tells _) (Reads.expect _ _)
    rintro _ _ rfl
    rw [List.append_assoc]
    exact late ⟨name, place⟩

/-- A listing tells of what one of its things tells of, behind those before that one. -/
theorem items {close : Mark} {item : σ → Reader σ} {advances : ∀ state, (item state).Advances}
    {text : ε → List Lexeme → Prop} {step : σ → ε → σ → Prop} {ahead : σ → List Lexeme → Prop}
    (reads : ∀ state, Reads (item state)
      (fun next shown => ∃ thing, text thing shown ∧ step state thing next) ahead)
    {start : σ}
    (late : ∀ things body state, Begun text things body → Steps step start things state →
      Tells (front ++ body) (item state)) :
    Tells front (Reader.items close item advances start) := by
  intro stream refusal refused told
  change Reader.items close item advances start stream = _ at refused
  fun_induction Reader.items close item advances start stream generalizing front with
  | case1 => cases refused
  | case2 start stream _ other read =>
      cases refused
      have here := late [] [] start .nil .nil
      rw [List.append_nil] at here
      exact here stream _ read told
  | case3 start stream _ next rest _ other comma =>
      cases refused
      exact (Harmless.takeMark? .comma rest _ comma told).elim
  | case4 => cases refused
  | case5 start stream _ next middle read more comma induction =>
      -- The thing and its comma join what stands in front of the things that are left.
      obtain ⟨used, rfl, thing, shown, stepped⟩ := (reads start).sound read
      obtain ⟨mark, rfl, same⟩ := (Reads.takeMark? .comma).sound comma
      have later : ∀ things body state, Begun text things body → Steps step next things state →
          Tells (front ++ (used ++ mark).map Token.lexeme ++ body) (item state) := by
        intro things body state begun steps
        rw [List.map_append, same, List.append_assoc, List.append_assoc]
        exact late _ _ state (.cons shown begun) (.cons stepped steps)
      obtain ⟨usedLater, last, before, culprit, rfl, split, breach⟩ := induction later refused
      refine ⟨used ++ mark ++ usedLater, last, before, culprit, ?_, ?_, breach⟩
      · rw [behind_append, behind_append]
      · rw [List.map_append, ← List.append_assoc]
        exact split

end Tells

theorem tells_enter {front shown : List Lexeme} {entries : List NamedValue}
    {values : NamedValues} {entry : NamedValue} (atFront : EntriesFront entries front)
    (holds : values.Holds entries) (text : NamedValueText entry shown) (start : Location) :
    Tells (front ++ shown) (enter values start entry) := by
  unfold enter
  generalize inserted : values.insert entry = result
  obtain ⟨outcome, next⟩ := result
  have told : (values.insert entry).1 = outcome := by rw [inserted]
  cases outcome with
  | inserted => exact (Harmless.pure _).tells _
  | duplicateValue =>
      have again := NamedValues.insert_fst_eq_duplicateValue_iff.mp told
      exact Tells.refuseAt rfl (.valueAgain atFront text (holds.mem_byValue_iff.mp again))
  | duplicateName =>
      rw [NamedValues.insert_fst_eq_duplicateName_iff, holds.mem_byValue_iff,
        holds.mem_byName_iff] at told
      exact Tells.refuseAt rfl (.nameAgain atFront text told.1 told.2)

theorem tells_namedValue {front : List Lexeme} {entries : List NamedValue} {values : NamedValues}
    (atFront : EntriesFront entries front) (holds : values.Holds entries) :
    Tells front (namedValue values) := by
  apply Tells.location_bind
  intro start
  apply (harmless_slotValue.tells _).bind reads_slotValue
  intro value shownValue valueText
  apply ((Harmless.expect _ _).tells _).bind (Reads.expect _ _)
  rintro _ _ rfl
  apply (harmless_slotName.tells _).bind reads_slotName
  intro name shownName nameText
  have entered := @tells_enter _ _ _ _ ⟨value, name⟩ atFront holds (.pair valueText nameText) start
  rwa [List.append_assoc, List.append_assoc]

theorem tells_namedValues {front : List Lexeme} {fields : List FieldDeclaration}
    (atFront : FunctionFront fields front)
    (fresh : .namedValues ∉ fields.filterMap FieldDeclaration.field?) :
    Tells (front ++ [.identifier FunctionField.namedValues.spelling, .mark .colon])
      namedValues := by
  apply ((Harmless.expect _ _).tells _).bind (Reads.expect _ _)
  rintro _ _ rfl
  apply Tells.bind_harmless
  · apply Tells.items reads_namedValue
    intro entries body values begun steps
    have holds := steps_accepts_iff.mp steps
    have told := tells_namedValue (.entries atFront fresh begun holds) holds
    rwa [List.append_assoc, List.append_assoc]
  · intro values
    exact (Harmless.expect _ _).bind fun _ => .pure _

theorem tells_functionFieldValue {front : List Lexeme} {fields : List FieldDeclaration}
    {draft : FunctionDraft} {field : FunctionField} (atFront : FunctionFront fields front)
    (fresh : field ∉ fields.filterMap FieldDeclaration.field?) :
    Tells (front ++ [.identifier field.spelling, .mark .colon])
      (functionFieldValue draft field) := by
  cases field with
  | id => exact ((harmless_unsigned _).bind fun _ => .pure _).tells _
  | size => exact ((harmless_unsigned _).bind fun _ => .pure _).tells _
  | args => exact ((harmless_string _).bind fun _ => .pure _).tells _
  | name => exact ((harmless_string _).bind fun _ => .pure _).tells _
  | codeBlock => exact (harmless_codeBlock.bind fun _ => .pure _).tells _
  | namedValues => exact (tells_namedValues atFront fresh).bind_harmless fun _ => .pure _

theorem tells_functionField {front : List Lexeme} {fields : List FieldDeclaration}
    {draft : FunctionDraft} (atFront : FunctionFront fields front)
    (steps : Steps Adds {} fields draft) : Tells front (functionField draft) := by
  apply Tells.fieldName_bind
  intro found
  unfold namedFieldValue
  split
  · exact (harmless_skipValue.bind fun _ => .pure _).tells _
  · next field known =>
    obtain ⟨name, place⟩ := found
    obtain rfl : name = field.spelling := field_ofSpelling?_eq_some_iff.mp known
    by_cases present : draft.has field = true
    · rw [if_pos present]
      exact Tells.refuseAt rfl (.fieldAgain atFront ((has_iff_of_steps steps field).mp present))
    · rw [if_neg present]
      exact tells_functionFieldValue atFront ((has_iff_of_steps steps field).not.mp present)

theorem tells_functionDraft {front : List Lexeme} (atFront : FunctionsFront front) :
    Tells front functionDraft := by
  apply ((harmless_openStruct _).tells _).bind (reads_openStruct _)
  intro _ opening opened
  apply Tells.bind_harmless
  · apply Tells.items reads_functionField
    intro fields body draft begun steps
    rw [List.append_assoc]
    apply tells_functionField _ steps
    exact .fields atFront (structOpening_iff.mpr opened) begun (recordable_iff.mpr ⟨draft, steps⟩)
  · intro draft
    exact (Harmless.expect _ _).bind fun _ => .pure _

theorem tells_function {front : List Lexeme} (atFront : FunctionsFront front) :
    Tells front function := by
  rw [function_eq_bind]
  apply Tells.location_bind
  intro start
  apply (tells_functionDraft atFront).bind reads_functionDraft
  rintro draft shown ⟨fields, body, listed, steps, text⟩
  unfold completed
  split
  · exact (Harmless.pure _).tells _
  · next field incomplete =>
    apply Tells.refuseAt rfl
    exact .fieldMissing atFront listed (recordable_iff.mpr ⟨draft, steps⟩) text
      ((complete_eq_error_iff_of_steps steps).mp incomplete)

theorem tells_functions {front : List Lexeme} (atFront : CatalogFront none front) :
    Tells (front ++ [.identifier functionsField, .mark .colon]) functions := by
  apply ((Harmless.expect _ _).tells _).bind (Reads.expect _ _)
  rintro _ _ rfl
  apply Tells.bind_harmless
  · apply Tells.items reads_functionBehind
    intro instructions body before begun _
    have told := tells_function (.functions atFront begun)
    rw [List.append_assoc, List.append_assoc]
    exact told.bind_harmless fun _ => .pure _
  · intro instructions
    exact (Harmless.expect _ _).bind fun _ => .pure _

theorem tells_catalogField {front : List Lexeme} {list : Option (Array Instruction)}
    (atFront : CatalogFront (list.map Array.toList) front) : Tells front (catalogField list) := by
  apply Tells.fieldName_bind
  rintro ⟨name, place⟩
  by_cases isList : name = functionsField
  · subst isList
    rw [if_pos rfl]
    cases list with
    | some earlier => exact Tells.refuseAt rfl (.functionsAgain atFront)
    | none => exact (tells_functions atFront).bind_harmless fun _ => .pure _
  · rw [if_neg isList]
    exact (harmless_skipValue.bind fun _ => .pure _).tells _

theorem tells_catalog : Tells [] catalog := by
  apply Tells.bind_harmless
  · apply ((harmless_openStruct _).tells _).bind (reads_openStruct _)
    intro _ opening opened
    apply Tells.bind_harmless
    · apply Tells.items reads_catalogField
      intro fields body list begun steps
      apply tells_catalogField
      exact .fields (structOpening_iff.mpr opened) begun (steps_list_iff.mp steps)
    · intro list stream refusal refused
      have located : location.run stream = .ok (stream.location, stream) := rfl
      rw [run_bind_of_ok located] at refused
      exact ((Harmless.expect _ _).bind fun _ => harmless_listed _ _) stream refusal refused
  · intro instructions
    exact harmless_endOfInput.bind fun _ => .pure _

end Reader

namespace TokenStream

open Grammar

variable {stream : TokenStream}

theorem checked_or_refused (stream : TokenStream) :
    stream.checked = .ok stream ∨
      ∃ lexical, stream.checked = .error lexical ∧ ¬ lexical.reason.TellsBreach := by
  cases checked : stream.checked with
  | error lexical => exact .inr ⟨lexical, rfl, not_tells_of_checked checked⟩
  | ok passed =>
      obtain ⟨rfl, _⟩ := checked_eq_ok_iff.mp checked
      exact .inl rfl

/-- A breach is told behind the check for a fault. -/
theorem catalog_run_of_refused {refusal : Refusal} (refused : stream.instructions = .error refusal)
    (tells : refusal.reason.TellsBreach) : Reader.catalog.run stream = .error refusal := by
  rcases stream.checked_or_refused with checked | ⟨lexical, checked, other⟩
  · rw [instructions_of_checked checked] at refused
    cases read : Reader.catalog.run stream with
    | error told =>
        rw [read] at refused
        cases refused
        rfl
    | ok result =>
        rw [read] at refused
        cases refused
  · unfold instructions at refused
    rw [checked] at refused
    cases refused
    exact (other tells).elim

/-- A stream is refused for the reason of a breach exactly if it has one for this reason, in front
of a token or the end of the source.  The place is where what breaks the beginning starts. -/
theorem instructions_eq_error_iff_breach {reason : Reason} {place : Location} :
    stream.instructions = .error ⟨reason, place⟩ ∧ reason.TellsBreach ↔
      ∃ front culprit last, stream = (behind culprit last).behind front ∧ last.Readable ∧
        Breach (front.map Token.lexeme) (culprit.map Token.lexeme) reason ∧
          place = (last.behind culprit).location := by
  constructor
  · rintro ⟨refused, tells⟩
    have read := catalog_run_of_refused refused tells
    obtain ⟨used, last, before, culprit, rfl, split, breach⟩ :=
      Reader.tells_catalog stream _ read tells
    rw [List.nil_append] at split
    obtain ⟨front, culprit, rfl, rfl, rfl⟩ := List.map_eq_append_iff.mp split
    rw [behind_append, breach.refused] at refused
    have told := Except.error.inj refused
    refine ⟨front, culprit, last, behind_append _ _ _, ?_⟩
    rcases last.checked_or_refused with checked | ⟨lexical, checked, other⟩
    · rw [overtaking_of_checked checked] at told
      exact ⟨(checked_eq_ok_iff.mp checked).2, breach, (congrArg Refusal.location told).symm⟩
    · rw [overtaking_of_fault checked] at told
      rw [told] at other
      exact (other tells).elim
  · rintro ⟨front, culprit, last, rfl, readable, breach, rfl⟩
    refine ⟨?_, breach.tells⟩
    rw [breach.refused, overtaking_of_checked (checked_eq_ok_iff.mpr ⟨rfl, readable⟩)]

end TokenStream

end OpcodeCatalog.Source

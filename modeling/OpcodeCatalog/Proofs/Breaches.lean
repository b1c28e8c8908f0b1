import OpcodeCatalog.Proofs.CatalogAcceptance
import OpcodeCatalog.Proofs.LookAhead

/-!
# Breaches of the grammar

A catalog that is not finished yet may still be well begun: every listing that is
open holds things with a comma behind each.  A breach is what comes next and
contradicts what is there already: a field once more, an entry that takes a value
or a name again, a function that closes without one of its fields.  It is found
behind its last lexeme, so nothing that follows replaces it, except a fault in
the very next one.
-/

namespace OpcodeCatalog.Source

namespace Grammar

/-- Things with a comma behind each: the beginning of a listing. -/
inductive Begun (text : α → List Lexeme → Prop) : List α → List Lexeme → Prop where
  | nil : Begun text [] []
  | cons {thing : α} {things : List α} {shown rest : List Lexeme} :
      text thing shown →
      Begun text things rest →
      Begun text (thing :: things) (shown ++ .mark .comma :: rest)

/-- The bracket that opens a structure, behind its name or without it. -/
inductive StructOpening (name : StructName) : List Lexeme → Prop where
  | unnamed : StructOpening name [.mark .leftParen]
  | named : StructOpening name [.identifier name.spelling, .mark .leftParen]

/-- The fields of a function as far as they are told: none of the six comes twice, and entries of
named values do not contradict each other. -/
structure Recordable (fields : List FieldDeclaration) : Prop where
  once : (fields.filterMap FieldDeclaration.field?).Nodup
  holdable : ∀ entries, .namedValues entries ∈ fields →
    ∃ values : NamedValues, values.Holds entries

/-- What stands in front of a field of a catalog, whose function list is told or not. -/
inductive CatalogFront (list : Option (List Instruction)) : List Lexeme → Prop where
  | fields {opening body : List Lexeme} {fields : List CatalogField} :
      StructOpening .catalog opening →
      Begun CatalogFieldText fields body →
      fields.filterMap CatalogField.list? = list.toList →
      CatalogFront list (opening ++ body)

/-- What stands in front of a function. -/
inductive FunctionsFront : List Lexeme → Prop where
  | functions {front body : List Lexeme} {instructions : List Instruction} :
      CatalogFront none front →
      Begun FunctionText instructions body →
      FunctionsFront
        (front ++ .identifier functionsField :: .mark .colon :: .mark .leftBracket :: body)

/-- What stands in front of a field of a function. -/
inductive FunctionFront (fields : List FieldDeclaration) : List Lexeme → Prop where
  | fields {front opening body : List Lexeme} :
      FunctionsFront front →
      StructOpening .function opening →
      Begun FieldText fields body →
      Recordable fields →
      FunctionFront fields (front ++ (opening ++ body))

/-- What stands in front of an entry of named values. -/
inductive EntriesFront (entries : List NamedValue) : List Lexeme → Prop where
  | entries {front body : List Lexeme} {fields : List FieldDeclaration} {values : NamedValues} :
      FunctionFront fields front →
      .namedValues ∉ fields.filterMap FieldDeclaration.field? →
      Begun NamedValueText entries body →
      values.Holds entries →
      EntriesFront entries
        (front ++ .identifier FunctionField.namedValues.spelling :: .mark .colon ::
          .mark .leftBrace :: body)

/-- What comes behind a good beginning and breaks it, and why. -/
inductive Breach : List Lexeme → List Lexeme → Reason → Prop where
  | functionsAgain {front : List Lexeme} {instructions : List Instruction} :
      CatalogFront (some instructions) front →
      Breach front [.identifier functionsField, .mark .colon] (.duplicateField functionsField)
  | fieldAgain {front : List Lexeme} {fields : List FieldDeclaration} {field : FunctionField} :
      FunctionFront fields front →
      field ∈ fields.filterMap FieldDeclaration.field? →
      Breach front [.identifier field.spelling, .mark .colon] (.duplicateField field.spelling)
  | valueAgain {front shown : List Lexeme} {entries : List NamedValue} {entry : NamedValue} :
      EntriesFront entries front →
      NamedValueText entry shown →
      entry.value ∈ entries.map NamedValue.value →
      Breach front shown (.valueAlreadyNamed entry.value)
  | nameAgain {front shown : List Lexeme} {entries : List NamedValue} {entry : NamedValue} :
      EntriesFront entries front →
      NamedValueText entry shown →
      entry.value ∉ entries.map NamedValue.value →
      entry.name ∈ entries.map NamedValue.name →
      Breach front shown (.nameAlreadyBound entry.name)
  | fieldMissing {front body shown : List Lexeme} {fields : List FieldDeclaration}
      {field : FunctionField} :
      FunctionsFront front →
      Listing FieldText fields body →
      Recordable fields →
      StructText .function body shown →
      FunctionField.all.find? (· ∉ fields.filterMap FieldDeclaration.field?) = some field →
      Breach front shown (.missingField field.spelling .function)

theorem structOpening_iff {name : StructName} {opening : List Lexeme} :
    StructOpening name opening ↔
      opening = [.mark .leftParen] ∨ opening = [.identifier name.spelling, .mark .leftParen] := by
  constructor
  · intro opened
    cases opened with
    | unnamed => exact .inl rfl
    | named => exact .inr rfl
  · rintro (rfl | rfl)
    · exact .unnamed
    · exact .named

theorem StructOpening.opens {name : StructName} {opening : List Lexeme}
    (opened : StructOpening name opening) : Reader.Opens opening := by
  cases opened with
  | unnamed => exact ⟨_, _, rfl, rfl⟩
  | named => exact ⟨_, _, rfl, rfl⟩

section Drafts

variable {fields : List FieldDeclaration} {draft : FunctionDraft}

/-- A draft has just the fields that are recorded in it. -/
theorem has_iff_of_steps (steps : Reader.Steps Adds {} fields draft) (field : FunctionField) :
    draft.has field = true ↔ field ∈ fields.filterMap FieldDeclaration.field? := by
  have fresh : ({} : FunctionDraft).has field = false := by
    cases field <;> rfl
  rw [steps_has_iff steps, fresh, Bool.false_eq_true, false_or]

/-- Fields can be recorded if a draft records them. -/
theorem recordable_iff : Recordable fields ↔ ∃ draft, Reader.Steps Adds {} fields draft := by
  constructor
  · intro recordable
    apply Grammar.exists_steps recordable.once _ recordable.holdable
    intro field _
    cases field <;> rfl
  · rintro ⟨draft, steps⟩
    refine ⟨(steps_nodup steps).1, ?_⟩
    intro entries member
    obtain ⟨values, _, holds⟩ := steps_show steps member
    exact ⟨values, holds⟩

/-- A draft that is not complete lacks the first field that it does not have. -/
theorem complete_eq_error_iff {field : FunctionField} :
    draft.complete = .error field ↔
      FunctionField.all.find? (fun field => !draft.has field) = some field := by
  obtain ⟨id, size, args, name, codeBlock, namedValues⟩ := draft
  cases id <;> cases size <;> cases args <;> cases name <;> cases codeBlock <;>
    cases namedValues <;> simp [FunctionDraft.complete, FunctionDraft.has, FunctionField.all]

theorem complete_eq_error_iff_of_steps (steps : Reader.Steps Adds {} fields draft)
    {field : FunctionField} :
    draft.complete = .error field ↔
      FunctionField.all.find? (· ∉ fields.filterMap FieldDeclaration.field?) = some field := by
  have same : (fun field => !draft.has field) =
      fun field => decide (field ∉ fields.filterMap FieldDeclaration.field?) := by
    funext field
    simp only [← has_iff_of_steps steps, Bool.not_eq_true, Bool.decide_eq_false]
  rw [complete_eq_error_iff, same]

end Drafts

end Grammar

namespace Reader

open Grammar TokenStream

section Runs

variable {stream rest : TokenStream} {refusal : Refusal}

/-- A listing is read up to where it has been begun. -/
theorem items_run_behind {close opening : Mark} {item : σ → Reader σ}
    {advances : ∀ state, (item state).Advances} {text : ε → List Lexeme → Prop}
    {step : σ → ε → σ → Prop} (closing : opening.closing? = some close)
    (reads : ∀ state, Reads (item state)
      (fun next shown => ∃ thing, text thing shown ∧ step state thing next)
      (fun _ rest => Closed rest))
    (opens : ∀ thing shown, text thing shown → Opens shown)
    {state final : σ} {things : List ε} {used : List Token}
    (begun : Begun text things (used.map Token.lexeme)) (steps : Steps step state things final)
    (readable : stream.Readable) :
    (items close item advances state).run (stream.behind used) =
      (items close item advances final).run stream := by
  generalize shownUsed : used.map Token.lexeme = shown at begun
  induction begun generalizing state used with
  | nil =>
      obtain rfl := List.map_eq_nil_iff.mp shownUsed
      cases steps
      rfl
  | @cons thing things shown others shows _ induction =>
      cases steps with
      | cons stepped steps =>
          obtain ⟨usedHere, usedLater, rfl, rfl, splitLater⟩ := List.map_eq_append_iff.mp shownUsed
          obtain ⟨comma, later, rfl, isComma, rfl⟩ := List.map_eq_cons_iff.mp splitLater
          rw [← List.singleton_append, behind_append, behind_append,
            Reads.thing_behind advances closing reads opens shows stepped isComma
              (readable.behind later)]
          exact induction steps rfl

/-- Behind what has been begun of a listing, an item that is refused refuses the listing. -/
theorem items_run_of_error {close opening : Mark} {item : σ → Reader σ}
    {advances : ∀ state, (item state).Advances} {state : σ}
    (closing : opening.closing? = some close) (opens : Opens stream.lexemes)
    (refused : (item state).run stream = .error refusal) :
    (items close item advances state).run stream = .error refusal := by
  rw [items_eq, if_neg (opens.kind_ne closing), refused]

/-- A listing that is refused where it has been begun is refused from its opening on. -/
theorem begun_run_of_error {close mark : Mark} {opener : Reader Unit} {item : σ → Reader σ}
    {advances : ∀ state, (item state).Advances} {after : σ → Reader α}
    {opening : Unit → List Lexeme → Prop} {text : ε → List Lexeme → Prop}
    {step : σ → ε → σ → Prop} (closing : mark.closing? = some close)
    (readsOpener : Reads opener opening)
    (reads : ∀ state, Reads (item state)
      (fun next shown => ∃ thing, text thing shown ∧ step state thing next)
      (fun _ rest => Closed rest))
    (opens : ∀ thing shown, text thing shown → Opens shown)
    {state final : σ} {things : List ε} {used : List Token} {front body : List Lexeme}
    (shown : used.map Token.lexeme = front ++ body) (opened : opening () front)
    (begun : Begun text things body) (steps : Steps step state things final)
    (ahead : Opens stream.lexemes) (refused : (item final).run stream = .error refusal) :
    (do
      opener
      let final ← items close item advances state
      after final).run (stream.behind used) = .error refusal := by
  obtain ⟨usedOpening, usedBody, rfl, rfl, rfl⟩ := List.map_eq_append_iff.mp shown
  have read := readsOpener.complete opened trivial (ahead.readable.behind usedBody)
  rw [behind_append, run_bind_of_ok read]
  apply run_bind_of_error
  rw [items_run_behind closing reads opens begun steps ahead.readable]
  exact items_run_of_error closing ahead refused

end Runs

/-- Behind the lexemes `front`, what the reader refuses is what the whole stream is refused for. -/
def LeadsTo (front : List Lexeme) (reader : Reader α) : Prop :=
  ∀ (used : List Token) (stream : TokenStream) (refusal : Refusal),
    used.map Token.lexeme = front → Opens stream.lexemes → reader.run stream = .error refusal →
      (stream.behind used).instructions = .error refusal

theorem leadsTo_catalogField {list : Option (Array Instruction)} {front : List Lexeme}
    (atFront : CatalogFront (list.map Array.toList) front) :
    LeadsTo front (catalogField list) := by
  have closing : Mark.leftParen.closing? = some .rightParen := rfl
  cases atFront with
  | @fields opening body fields opened begun once =>
      intro used stream refusal shown opens refused
      have body : catalogBody.run (stream.behind used) = .error refusal :=
        begun_run_of_error closing (reads_openStruct .catalog) reads_catalogField
          catalogFieldText_opens shown (structOpening_iff.mp opened) begun
          (steps_list_iff.mpr once) opens refused
      have nonempty : used ≠ [] := by
        rintro rfl
        obtain ⟨_, _, rfl, _⟩ := opened.opens
        cases shown
      rw [instructions_of_checked (checked_behind nonempty)]
      change (catalog.run _).map _ = _
      unfold catalog
      rw [run_bind_of_error body]
      rfl

theorem fieldName_run_behind {name colon : Token} {text : Bytes}
    (named : name.lexeme = .identifier text) (isColon : colon.lexeme = .mark .colon)
    (last : TokenStream) :
    fieldName.run (last.behind [name, colon]) =
      last.checked.map (⟨text, name.location⟩, ·) := by
  obtain ⟨_, place⟩ := name
  obtain ⟨_, colonPlace⟩ := colon
  subst named isColon
  have whole : fieldName.run (last.behind [⟨.identifier text, place⟩, ⟨.mark .colon, colonPlace⟩]) =
      (last.checked.map ((), ·)).bind fun result => .ok (⟨text, place⟩, result.2) := rfl
  rw [whole]
  cases last.checked <;> rfl

theorem expect_run_behind {token : Token} {mark : Mark} (place : Place)
    (isMark : token.lexeme = .mark mark) {last : TokenStream} (readable : last.Readable) :
    (expect mark place).run (last.behind [token]) = .ok ((), last) := by
  apply (Reads.expect mark place).complete _ trivial readable
  rw [List.map_singleton, isMark]

/-- What leads to a field leads on to what its value leads to. -/
theorem LeadsTo.field {front body : List Lexeme} {name : Bytes} {value : FieldName → Reader α}
    {reader : Reader β} (leads : LeadsTo front (fieldName >>= value))
    (inner : ∀ place, ∀ (used : List Token) (stream : TokenStream) (refusal : Refusal),
      used.map Token.lexeme = body → Opens stream.lexemes →
        reader.run stream = .error refusal →
          (value ⟨name, place⟩).run (stream.behind used) = .error refusal) :
    LeadsTo (front ++ .identifier name :: .mark .colon :: body) reader := by
  intro used stream refusal shown opens refused
  obtain ⟨usedFront, usedField, rfl, rfl, shownField⟩ := List.map_eq_append_iff.mp shown
  obtain ⟨nameToken, usedField, rfl, named, shownField⟩ := List.map_eq_cons_iff.mp shownField
  obtain ⟨colon, usedBody, rfl, isColon, shownBody⟩ := List.map_eq_cons_iff.mp shownField
  have split : stream.behind (usedFront ++ nameToken :: colon :: usedBody) =
      ((stream.behind usedBody).behind [nameToken, colon]).behind usedFront := by
    simp only [← behind_append, List.cons_append, List.nil_append]
  rw [split]
  apply leads usedFront _ refusal rfl
  · exact ⟨_, _, rfl, by rw [named]; rfl⟩
  · have readable : (stream.behind usedBody).checked = .ok (stream.behind usedBody) :=
      checked_eq_ok_iff.mpr ⟨rfl, opens.readable.behind usedBody⟩
    have read := fieldName_run_behind named isColon (stream.behind usedBody)
    rw [readable] at read
    rw [run_bind_of_ok read]
    exact inner _ usedBody stream refusal shownBody opens refused

theorem leadsTo_function {front : List Lexeme} (atFront : FunctionsFront front) :
    LeadsTo front function := by
  have closing : Mark.leftBracket.closing? = some .rightBracket := rfl
  cases atFront with
  | @functions front body instructions atFront begun =>
      apply (@leadsTo_catalogField none _ atFront).field
      intro place used stream refusal shown opens refused
      have steps : Steps (fun (before : Array Instruction) instruction next =>
          next = before.push instruction) #[] instructions instructions.toArray :=
        steps_push_iff.mpr rfl
      rw [if_pos rfl]
      apply run_bind_of_error
      exact begun_run_of_error closing (Reads.expect _ _) reads_functionBehind functionText_opens
        shown rfl begun steps opens (run_bind_of_error refused)

theorem leadsTo_functionField {front : List Lexeme} {fields : List FieldDeclaration}
    (atFront : FunctionFront fields front) :
    ∃ draft : FunctionDraft, Steps Adds {} fields draft ∧ LeadsTo front (functionField draft) := by
  have closing : Mark.leftParen.closing? = some .rightParen := rfl
  cases atFront with
  | @fields front opening body atFront opened begun recordable =>
      obtain ⟨draft, steps⟩ := recordable_iff.mp recordable
      refine ⟨draft, steps, ?_⟩
      intro used stream refusal shown opens refused
      obtain ⟨usedFront, usedStruct, rfl, rfl, shownStruct⟩ := List.map_eq_append_iff.mp shown
      rw [behind_append]
      apply leadsTo_function atFront usedFront _ refusal rfl
      · rw [lexemes_behind, shownStruct, List.append_assoc]
        exact opened.opens.append _
      · have located : location.run (stream.behind usedStruct) =
            .ok (_, stream.behind usedStruct) := rfl
        unfold function
        rw [run_bind_of_ok located]
        exact begun_run_of_error closing (reads_openStruct .function) reads_functionField
          fieldText_opens shownStruct (structOpening_iff.mp opened) begun steps opens refused

theorem leadsTo_namedValue {front : List Lexeme} {entries : List NamedValue}
    (atFront : EntriesFront entries front) :
    ∃ values : NamedValues, values.Holds entries ∧ LeadsTo front (namedValue values) := by
  have closing : Mark.leftBrace.closing? = some .rightBrace := rfl
  cases atFront with
  | @entries front body fields values atFront fresh begun holds =>
      obtain ⟨draft, steps, leads⟩ := leadsTo_functionField atFront
      refine ⟨values, holds, leads.field ?_⟩
      intro place used stream refusal shown opens refused
      have absent : ¬ draft.has .namedValues = true := (has_iff_of_steps steps _).not.mpr fresh
      simp only [namedFieldValue, field_ofSpelling?_eq_some_iff.mpr rfl, if_neg absent]
      apply run_bind_of_error
      exact begun_run_of_error closing (Reads.expect _ _)
        (fun values => (reads_namedValue values).wherever) namedValueText_opens shown rfl begun
        (steps_accepts_iff.mpr holds) opens refused

end Reader

/-- The refusal, unless a fault is read here: then that fault is told in its place. -/
def Reading.overtaking (reading : Reading) (refusal : Refusal) : Refusal :=
  match reading with
  | .ending ⟨some fault, place⟩ => ⟨.lexical fault, place⟩
  | _ => refusal

namespace TokenStream

variable {stream : TokenStream}

theorem overtaking_of_checked {passed : TokenStream} (checked : stream.checked = .ok passed)
    (refusal : Refusal) : stream.front.overtaking refusal = refusal := by
  cases atFront : stream.front with
  | token token => rfl
  | ending ending =>
      obtain rfl := front_eq_ending_iff.mp atFront
      obtain ⟨fault, place⟩ := ending
      cases fault with
      | none => rfl
      | some fault => cases checked

theorem overtaking_of_fault {lexical : Refusal} (checked : stream.checked = .error lexical)
    (refusal : Refusal) : stream.front.overtaking refusal = lexical := by
  cases atFront : stream.front with
  | token token =>
      obtain ⟨rest, rfl⟩ := front_eq_token_iff.mp atFront
      cases checked
  | ending ending =>
      obtain rfl := front_eq_ending_iff.mp atFront
      obtain ⟨fault, place⟩ := ending
      cases fault with
      | none => cases checked
      | some fault =>
          cases checked
          rfl

end TokenStream

namespace Reader

open Grammar TokenStream

theorem run_bind_overtaken {first : Reader α} {second : α → Reader β} {value : α}
    {stream last : TokenStream} {refusal : Refusal}
    (read : first.run stream = last.checked.map (value, ·))
    (refused : (second value).run last = .error refusal) :
    (first >>= second).run stream = .error (last.front.overtaking refusal) := by
  rw [StateT.run_bind, read]
  cases checked : last.checked with
  | error lexical =>
      rw [overtaking_of_fault checked]
      rfl
  | ok passed =>
      rw [overtaking_of_checked checked]
      obtain ⟨rfl, _⟩ := checked_eq_ok_iff.mp checked
      exact refused

theorem catalogField_run_again {name colon : Token}
    (named : name.lexeme = .identifier functionsField)
    (isColon : colon.lexeme = .mark .colon) (instructions : Array Instruction)
    (last : TokenStream) :
    (catalogField (some instructions)).run (last.behind [name, colon]) =
      .error (last.front.overtaking ⟨.duplicateField functionsField, name.location⟩) := by
  apply run_bind_overtaken (fieldName_run_behind named isColon last)
  rw [if_pos rfl]
  rfl

theorem functionField_run_again {name colon : Token} {draft : FunctionDraft}
    {field : FunctionField} (named : name.lexeme = .identifier field.spelling)
    (isColon : colon.lexeme = .mark .colon) (present : draft.has field = true)
    (last : TokenStream) :
    (functionField draft).run (last.behind [name, colon]) =
      .error (last.front.overtaking ⟨.duplicateField field.spelling, name.location⟩) := by
  apply run_bind_overtaken (fieldName_run_behind named isColon last)
  simp only [namedFieldValue, field_ofSpelling?_eq_some_iff.mpr rfl, if_pos present]
  rfl

theorem namedValue_run_conflict {values : NamedValues} {entry : NamedValue} {used : List Token}
    {reason : Reason} (shown : NamedValueText entry (used.map Token.lexeme))
    (conflict : ∀ start, enter values start entry = refuseAt start reason) (last : TokenStream) :
    (namedValue values).run (last.behind used) =
      .error (last.front.overtaking ⟨reason, (last.behind used).location⟩) := by
  generalize shownUsed : used.map Token.lexeme = lexemes at shown
  cases shown with
  | pair valueText nameText =>
      obtain ⟨usedValue, usedLater, rfl, rfl, shownLater⟩ := List.map_eq_append_iff.mp shownUsed
      obtain ⟨colon, usedName, rfl, isColon, rfl⟩ := List.map_eq_cons_iff.mp shownLater
      have nonempty : usedName ≠ [] := by
        rintro rfl
        obtain ⟨_, _, front, _⟩ := slotText_opens nameText
        cases front
      have readable : (last.behind usedName).Readable :=
        (checked_eq_ok_iff.mp (checked_behind nonempty)).2
      have located : location.run (last.behind (usedValue ++ colon :: usedName)) = .ok (_, _) := rfl
      have value : slotValue.run (last.behind (usedValue ++ colon :: usedName)) =
          .ok (entry.value, (last.behind usedName).behind [colon]) := by
        rw [behind_append, ← List.singleton_append, behind_append]
        exact reads_slotValue.complete valueText trivial (readable.behind [colon])
      unfold namedValue
      rw [run_bind_of_ok located, run_bind_of_ok value,
        run_bind_of_ok (expect_run_behind _ isColon readable)]
      apply run_bind_overtaken (reads_slotName.run_behind (@alike_slotName id).looksAhead nameText
        nonempty last)
      rw [conflict]
      rfl

theorem looksAhead_functionDraft (stream : TokenStream) : LooksAhead functionDraft stream := by
  have alike : Alike id functionDraft functionDraft :=
    (alike_openStruct _).bind fun _ => (Alike.items _ alike_functionField _).bind fun _ =>
      (Alike.expect _ _).bind fun _ => .pure _
  exact alike.looksAhead stream

theorem function_run_incomplete {draft : FunctionDraft} {fields : List FieldDeclaration}
    {field : FunctionField} {body : List Lexeme} {used : List Token}
    (listed : Listing FieldText fields body) (steps : Steps Adds {} fields draft)
    (shown : StructText .function body (used.map Token.lexeme))
    (incomplete : draft.complete = .error field) (last : TokenStream) :
    function.run (last.behind used) =
      .error (last.front.overtaking
        ⟨.missingField field.spelling .function, (last.behind used).location⟩) := by
  have nonempty : used ≠ [] := by
    rintro rfl
    cases shown
  have read := reads_functionDraft.run_behind looksAhead_functionDraft
    ⟨fields, body, listed, steps, shown⟩ nonempty last
  have located : location.run (last.behind used) = .ok (_, last.behind used) := rfl
  rw [function_eq_bind, run_bind_of_ok located]
  apply run_bind_overtaken read
  simp only [completed, incomplete]
  rfl

end Reader

namespace Grammar

open Reader TokenStream

theorem enter_of_valueAgain {values : NamedValues} {entries : List NamedValue}
    {entry : NamedValue} (holds : values.Holds entries)
    (again : entry.value ∈ entries.map NamedValue.value) (start : Location) :
    enter values start entry = refuseAt start (.valueAlreadyNamed entry.value) := by
  have outcome := NamedValues.insert_fst_eq_duplicateValue_iff.mpr
    (holds.mem_byValue_iff.mpr again)
  unfold enter
  generalize values.insert entry = result at outcome
  obtain ⟨_, _⟩ := result
  cases outcome
  rfl

theorem enter_of_nameAgain {values : NamedValues} {entries : List NamedValue}
    {entry : NamedValue} (holds : values.Holds entries)
    (fresh : entry.value ∉ entries.map NamedValue.value)
    (again : entry.name ∈ entries.map NamedValue.name) (start : Location) :
    enter values start entry = refuseAt start (.nameAlreadyBound entry.name) := by
  have outcome : (values.insert entry).1 = .duplicateName := by
    rw [NamedValues.insert_fst_eq_duplicateName_iff, holds.mem_byValue_iff, holds.mem_byName_iff]
    exact ⟨fresh, again⟩
  unfold enter
  generalize values.insert entry = result at outcome
  obtain ⟨_, _⟩ := result
  cases outcome
  rfl

theorem exists_name_of_map {used : List Token} {text : Bytes}
    (shown : used.map Token.lexeme = [.identifier text, .mark .colon]) :
    ∃ name colon : Token, used = [name, colon] ∧ name.lexeme = .identifier text ∧
      colon.lexeme = .mark .colon := by
  obtain ⟨name, rest, rfl, named, shownRest⟩ := List.map_eq_cons_iff.mp shown
  obtain ⟨colon, rfl, isColon⟩ := List.map_eq_singleton_iff.mp shownRest
  exact ⟨name, colon, rfl, named, isColon⟩

/-- What a breach is refused for, and where, whatever follows it but a fault. -/
theorem Breach.refused {front culprit : List Token} {reason : Reason}
    (breach : Breach (front.map Token.lexeme) (culprit.map Token.lexeme) reason)
    (last : TokenStream) :
    ((last.behind culprit).behind front).instructions =
      .error (last.front.overtaking ⟨reason, (last.behind culprit).location⟩) := by
  generalize shownFront : front.map Token.lexeme = lexemesFront at breach
  generalize shown : culprit.map Token.lexeme = lexemes at breach
  cases breach with
  | @functionsAgain instructions atFront =>
      obtain ⟨name, colon, rfl, named, isColon⟩ := exists_name_of_map shown
      apply @leadsTo_catalogField (some instructions.toArray) _ atFront front _ _ shownFront
      · exact ⟨_, _, rfl, by rw [named]; rfl⟩
      · exact catalogField_run_again named isColon _ last
  | fieldAgain atFront member =>
      obtain ⟨draft, steps, leads⟩ := leadsTo_functionField atFront
      obtain ⟨name, colon, rfl, named, isColon⟩ := exists_name_of_map shown
      apply leads front _ _ shownFront
      · exact ⟨_, _, rfl, by rw [named]; rfl⟩
      · exact functionField_run_again named isColon ((has_iff_of_steps steps _).mpr member) last
  | valueAgain atFront text again =>
      obtain ⟨values, holds, leads⟩ := leadsTo_namedValue atFront
      subst shown
      apply leads front _ _ shownFront
      · rw [lexemes_behind]
        exact (namedValueText_opens _ _ text).append _
      · exact namedValue_run_conflict text (enter_of_valueAgain holds again) last
  | nameAgain atFront text fresh again =>
      obtain ⟨values, holds, leads⟩ := leadsTo_namedValue atFront
      subst shown
      apply leads front _ _ shownFront
      · rw [lexemes_behind]
        exact (namedValueText_opens _ _ text).append _
      · exact namedValue_run_conflict text (enter_of_nameAgain holds fresh again) last
  | @fieldMissing _ body fields field atFront listed recordable text first =>
      obtain ⟨draft, steps⟩ := recordable_iff.mp recordable
      subst shown
      apply leadsTo_function atFront front _ _ shownFront
      · rw [lexemes_behind]
        exact (structText_opens text).append _
      · exact function_run_incomplete listed steps text
          ((complete_eq_error_iff_of_steps steps).mpr first) last

end Grammar

end OpcodeCatalog.Source

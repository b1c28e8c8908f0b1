import OpcodeCatalog.Proofs.Acceptance
import OpcodeCatalog.Proofs.FunctionDrafts
import OpcodeCatalog.Proofs.Lexing

/-!
# Which sources are catalogs

The readers of named values, functions and catalogs carry something on from
field to field: the entries so far, a draft, the function list.  What they carry
on is told step by step here and then for all fields together, which gives the
instructions that a source declares, and for which sources there are any.
-/

namespace OpcodeCatalog.Source

open Grammar

namespace Reader

/-! ## Named values -/

/-- A comma that may be missing. -/
theorem reads_optionalComma :
    Reads (discard <| takeMark? .comma) (fun _ shown => shown = [] ∨ shown = [.mark .comma])
      (fun _ rest => rest.head? ≠ some (.mark .comma)) := by
  have taken : Reads (takeMark? .comma)
      (fun found shown => shown = if found then [.mark .comma] else [])
      (fun _ rest => rest.head? ≠ some (.mark .comma)) :=
    (Reads.takeMark? .comma).before fun _ _ absent _ => absent
  apply (taken.map fun _ => ()).congr
  intro _ shown
  constructor
  · intro read
    obtain ⟨found, -, rfl⟩ := read
    cases found with
    | true => exact Or.inr rfl
    | false => exact Or.inl rfl
  · intro shown
    rcases shown with rfl | rfl
    · exact ⟨false, rfl, rfl⟩
    · exact ⟨true, rfl, rfl⟩

/-- The end of a slot and what is bound in it. -/
theorem reads_slotEnd (closing : Place) (bound : α) :
    Reads (do
        discard <| takeMark? .comma
        expect .rightParen closing
        return bound)
      (fun result shown => (shown = [.mark .rightParen] ∨
        shown = [.mark .comma, .mark .rightParen]) ∧ result = bound) := by
  refine (reads_optionalComma.bindBefore
    (fun _ => (Reads.expect .rightParen closing).bind fun _ => Reads.pure _) ?_).congr ?_
  · intro _ _ shown rest read _
    obtain ⟨_, _, _, rfl, rfl, _⟩ := read
    simp
  · intro result shown
    constructor
    · intro read
      obtain ⟨_, _, _, rfl, comma, _, _, _, rfl, rfl, rfl, rfl⟩ := read
      rcases comma with rfl | rfl
      · exact ⟨Or.inl rfl, rfl⟩
      · exact ⟨Or.inr rfl, rfl⟩
    · intro found
      obtain ⟨rfl | rfl, rfl⟩ := found
      · exact ⟨(), [], _, rfl, Or.inl rfl, (), [.mark .rightParen], [], rfl, rfl, rfl, rfl⟩
      · exact ⟨(), [.mark .comma], _, rfl, Or.inr rfl, (), [.mark .rightParen], [], rfl, rfl,
          rfl, rfl⟩

/-- A slot and something bound in it, which is read by a reader of one lexeme. -/
theorem reads_slot {bound : Reader β} {lexeme : β → Lexeme} {opening closing inside : Place}
    {field : Bytes} (reads : Reads bound fun value shown => shown = [lexeme value])
    (make : UInt32 → β → α) :
    Reads (do
        expect .leftParen opening
        let slot ← unsigned field
        expect .comma inside
        let value ← bound
        discard <| takeMark? .comma
        expect .rightParen closing
        return make slot value)
      (fun result shown => ∃ slot value, result = make slot value ∧
        SlotText slot (lexeme value) shown) := by
  apply ((Reads.expect .leftParen opening).bind fun _ => (reads_unsigned field).bind fun slot =>
    (Reads.expect .comma inside).bind fun _ => reads.bind fun value =>
      reads_slotEnd closing (make slot value)).congr
  intro result shown
  constructor
  · intro read
    obtain ⟨_, _, _, rfl, rfl, slot, _, _, rfl, rfl, _, _, _, rfl, rfl, value, _, _, rfl, rfl,
      ending, rfl⟩ := read
    refine ⟨slot, value, rfl, ?_⟩
    rcases ending with rfl | rfl
    · exact .plain
    · exact .comma
  · intro found
    obtain ⟨slot, value, rfl, text⟩ := found
    cases text with
    | plain =>
        exact ⟨(), [_], _, rfl, rfl, slot, [_], _, rfl, rfl, (), [_], _, rfl, rfl, value, [_], _,
          rfl, rfl, Or.inl rfl, rfl⟩
    | comma =>
        exact ⟨(), [_], _, rfl, rfl, slot, [_], _, rfl, rfl, (), [_], _, rfl, rfl, value, [_], _,
          rfl, rfl, Or.inr rfl, rfl⟩

theorem reads_slotValue :
    Reads slotValue (fun value shown =>
      SlotText value.slot (.integer value.value.toInt) shown) := by
  apply (reads_slot (reads_signed (ascii "value")) SlotValue.mk).congr
  intro value shown
  constructor
  · intro read
    obtain ⟨slot, number, rfl, text⟩ := read
    exact text
  · intro text
    exact ⟨value.slot, value.value, rfl, text⟩

theorem reads_slotName :
    Reads slotName (fun name shown => SlotText name.slot (.string name.name) shown) := by
  apply (reads_slot (reads_string (ascii "name")) SlotName.mk).congr
  intro name shown
  constructor
  · intro read
    obtain ⟨slot, text, rfl, shown⟩ := read
    exact shown
  · intro text
    exact ⟨name.slot, name.name, rfl, text⟩

theorem reads_enter (values : NamedValues) (start : Location) (entry : NamedValue) :
    Reads (enter values start entry)
      (fun next shown => values.insert entry = (.inserted, next) ∧ shown = []) := by
  unfold enter
  split
  · next next accepted =>
    apply (Reads.pure next).congr
    intro result shown
    simp [accepted, eq_comm]
  · next refused =>
    apply Reads.refuseAt
    intro result shown
    simp [refused]
  · next refused =>
    apply Reads.refuseAt
    intro result shown
    simp [refused]

theorem reads_namedValue (values : NamedValues) :
    Reads (namedValue values) (fun next shown => ∃ entry, NamedValueText entry shown ∧
      values.insert entry = (.inserted, next)) := by
  apply Reads.location_bind
  intro start
  apply (reads_slotValue.bind fun value => (Reads.expect .colon .afterEntryValue).bind fun _ =>
    reads_slotName.bind fun name => reads_enter values start ⟨value, name⟩).congr
  intro next shown
  constructor
  · intro read
    obtain ⟨value, _, _, rfl, valueShown, _, _, _, rfl, rfl, name, _, _, rfl, nameShown, accepted,
      rfl⟩ := read
    refine ⟨⟨value, name⟩, ?_, accepted⟩
    rw [List.append_nil]
    exact .pair valueShown nameShown
  · intro found
    obtain ⟨entry, text, accepted⟩ := found
    cases text with
    | @pair value name valueShown nameShown =>
        exact ⟨entry.value, value, _, rfl, valueShown, (), [_], _, rfl, rfl, entry.name, name, [],
          (List.append_nil _).symm, nameShown, accepted, rfl⟩

/-- An entry that named values accept, and what they are then. -/
abbrev Accepts (values : NamedValues) (entry : NamedValue) (next : NamedValues) : Prop :=
  values.insert entry = (.inserted, next)

theorem holds_of_steps {values final : NamedValues} {entries later : List NamedValue}
    (steps : Steps Accepts values later final) (holds : values.Holds entries) :
    final.Holds (entries ++ later) := by
  induction steps generalizing entries with
  | nil => simpa using holds
  | @cons values next final entry later accepted steps induction =>
      have inserted : (values.insert entry).1 = .inserted := by rw [accepted]
      have nextHolds := holds.insert inserted
      rw [accepted] at nextHolds
      apply (induction nextHolds).perm
      simpa using (@List.perm_middle _ entry entries later).symm

theorem steps_of_distinct {values : NamedValues} {entries later : List NamedValue}
    (holds : values.Holds entries)
    (distinctValues : ((entries ++ later).map NamedValue.value).Nodup)
    (distinctNames : ((entries ++ later).map NamedValue.name).Nodup) :
    ∃ final, Steps Accepts values later final := by
  induction later generalizing values entries with
  | nil => exact ⟨values, .nil⟩
  | cons entry later induction =>
      have middle : (entries ++ entry :: later).Perm (entry :: entries ++ later) :=
        List.perm_middle
      have nodupValues := (middle.map NamedValue.value).nodup_iff.mp distinctValues
      have nodupNames := (middle.map NamedValue.name).nodup_iff.mp distinctNames
      have inserted := holds.inserted_of_distinct distinctValues distinctNames
      obtain ⟨final, steps⟩ := induction (holds.insert inserted) nodupValues nodupNames
      exact ⟨final, .cons (Prod.ext inserted rfl) steps⟩

/-- Reading entries one after the other into none gives the named values that hold them. -/
theorem steps_accepts_iff {entries : List NamedValue} {values : NamedValues} :
    Steps Accepts .empty entries values ↔ values.Holds entries := by
  constructor
  · intro steps
    exact holds_of_steps steps .empty
  · intro holds
    obtain ⟨final, steps⟩ := steps_of_distinct .empty holds.nodup_values holds.nodup_names
    have same : values = final := holds.unique (holds_of_steps steps .empty)
    rw [same]
    exact steps

theorem slotText_opens {slot : UInt32} {bound : Lexeme} {shown : List Lexeme}
    (text : SlotText slot bound shown) : Opens shown := by
  cases text with
  | plain => exact ⟨_, _, rfl, rfl⟩
  | comma => exact ⟨_, _, rfl, rfl⟩

theorem namedValueText_opens (entry : NamedValue) (shown : List Lexeme)
    (text : NamedValueText entry shown) : Opens shown := by
  cases text with
  | pair value _ => exact (slotText_opens value).append _

theorem reads_namedValues :
    Reads namedValues (fun values shown => ∃ entries inner,
      shown = .mark .leftBrace :: (inner ++ [.mark .rightBrace]) ∧
        Listing NamedValueText entries inner ∧ values.Holds entries) := by
  have closing : Mark.leftBrace.closing? = some .rightBrace := rfl
  apply ((Reads.expect .leftBrace .openNamedValues).bind fun _ =>
    Reads.closedItems advances_namedValue closing
      (fun values => (reads_namedValue values).wherever) namedValueText_opens .empty
      .closeNamedValues Reads.pure).congr
  intro values shown
  constructor
  · intro read
    obtain ⟨_, _, _, rfl, rfl, entries, final, inner, _, rfl, listed, steps, rfl, rfl⟩ := read
    exact ⟨entries, inner, rfl, listed, steps_accepts_iff.mp steps⟩
  · intro found
    obtain ⟨entries, inner, rfl, listed, holds⟩ := found
    exact ⟨(), [_], _, rfl, rfl, entries, values, inner, [], rfl, listed,
      steps_accepts_iff.mpr holds, rfl, rfl⟩

/-! ## Functions -/

theorem field_ofSpelling?_eq_some_iff {text : Bytes} {field : FunctionField} :
    FunctionField.ofSpelling? text = some field ↔ text = field.spelling := by
  constructor
  · intro found
    have matched := List.find?_some found
    exact (beq_iff_eq.mp matched).symm
  · intro same
    subst same
    cases field <;> rfl

theorem fieldNamed_iff {declaration : FieldDeclaration} {name : Bytes} :
    FieldNamed declaration name ↔
      match FunctionField.ofSpelling? name with
      | some field => declaration.field? = some field
      | none => declaration = .other name := by
  constructor
  · intro named
    cases named with
    | known known =>
        rw [field_ofSpelling?_eq_some_iff.mpr rfl]
        exact known
    | other unlike =>
        cases found : FunctionField.ofSpelling? name with
        | none => rfl
        | some field => exact (unlike field (field_ofSpelling?_eq_some_iff.mp found).symm).elim
  · cases found : FunctionField.ofSpelling? name with
    | none =>
        intro other
        subst other
        refine .other ?_
        intro field same
        rw [field_ofSpelling?_eq_some_iff.mpr same.symm] at found
        cases found
    | some field =>
        intro known
        rw [field_ofSpelling?_eq_some_iff.mp found]
        exact .known known

/-- A field whose value is one lexeme. -/
theorem reads_field {reader : Reader β} {lexeme : β → Lexeme} {declare : β → FieldDeclaration}
    {draft : FunctionDraft} {record : β → FunctionDraft} {field : FunctionField}
    (reads : Reads reader fun value shown => shown = [lexeme value])
    (known : ∀ value, (declare value).field? = some field)
    (text : ∀ value, ValueText (declare value) [lexeme value])
    (records : ∀ value, Records draft (declare value) (record value))
    (only : ∀ declaration shown next, declaration.field? = some field →
      ValueText declaration shown → Records draft declaration next →
        ∃ value, next = record value ∧ shown = [lexeme value]) :
    Reads (reader >>= fun value => pure (record value)) (fun next shown => ∃ declaration,
      declaration.field? = some field ∧ ValueText declaration shown ∧
        Records draft declaration next) := by
  apply (reads.map record).congr
  intro next shown
  constructor
  · intro read
    obtain ⟨value, rfl, rfl⟩ := read
    exact ⟨declare value, known value, text value, records value⟩
  · intro found
    obtain ⟨declaration, declared, shows', recorded⟩ := found
    exact only _ _ _ declared shows' recorded

theorem reads_functionFieldValue (draft : FunctionDraft) (field : FunctionField) :
    Reads (functionFieldValue draft field) (fun next shown => ∃ declaration,
      declaration.field? = some field ∧ ValueText declaration shown ∧
        Records draft declaration next) := by
  cases field with
  | id =>
      apply reads_field (reads_unsigned _) (fun _ => rfl) .id .id
      intro declaration shown next known value records
      cases value <;> cases known
      cases records
      exact ⟨_, rfl, rfl⟩
  | size =>
      apply reads_field (reads_unsigned _) (fun _ => rfl) .size .size
      intro declaration shown next known value records
      cases value <;> cases known
      cases records
      exact ⟨_, rfl, rfl⟩
  | args =>
      apply reads_field (reads_string _) (fun _ => rfl) .args .args
      intro declaration shown next known value records
      cases value <;> cases known
      cases records
      exact ⟨_, rfl, rfl⟩
  | name =>
      apply reads_field (reads_string _) (fun _ => rfl) .name .name
      intro declaration shown next known value records
      cases value <;> cases known
      cases records
      exact ⟨_, rfl, rfl⟩
  | codeBlock =>
      apply reads_field reads_codeBlock (fun _ => rfl) .codeBlock .codeBlock
      intro declaration shown next known value records
      cases value <;> cases known
      cases records
      exact ⟨_, rfl, rfl⟩
  | namedValues =>
      refine (reads_namedValues.map fun values =>
        { draft with namedValues := some values }).congr ?_
      intro next shown
      constructor
      · intro read
        obtain ⟨values, rfl, entries, inner, rfl, listed, holds⟩ := read
        exact ⟨.namedValues entries, rfl, .namedValues listed, .namedValues holds⟩
      · intro found
        obtain ⟨declaration, known, value, records⟩ := found
        cases value with
        | namedValues listed =>
            cases records with
            | namedValues holds => exact ⟨_, rfl, _, _, rfl, listed, holds⟩
        | _ => cases known

theorem reads_namedFieldValue (draft : FunctionDraft) (found : FieldName) :
    Reads (namedFieldValue draft found)
      (fun next shown => ∃ declaration, FieldNamed declaration found.name ∧
        ValueText declaration shown ∧ Adds draft declaration next)
      (fun _ rest => Closed rest) := by
  unfold namedFieldValue
  simp only [fieldNamed_iff]
  cases FunctionField.ofSpelling? found.name with
  | none =>
      apply (reads_skipValue.map fun _ => draft).congr
      intro next shown
      constructor
      · intro read
        obtain ⟨_, rfl, skipped⟩ := read
        refine ⟨.other found.name, rfl, .other skipped, ?_, .other found.name⟩
        intro field known
        cases known
      · intro recorded
        obtain ⟨declaration, rfl, shown, adds⟩ := recorded
        cases shown with
        | other skipped =>
            cases adds.records
            exact ⟨(), rfl, skipped⟩
  | some field =>
      dsimp only
      split
      · next present =>
        apply Reads.refuseAt
        intro next shown recorded
        obtain ⟨declaration, known, shown, adds⟩ := recorded
        rw [adds.fresh _ known] at present
        cases present
      · next absent =>
        refine ((reads_functionFieldValue draft field).congr ?_).wherever
        intro next shown
        constructor
        · intro read
          obtain ⟨declaration, declared, shown, records⟩ := read
          refine ⟨declaration, declared, shown, ?_, records⟩
          intro other otherDeclared
          cases declared.symm.trans otherDeclared
          simpa using absent
        · intro recorded
          obtain ⟨declaration, declared, shown, adds⟩ := recorded
          exact ⟨declaration, declared, shown, adds.records⟩

theorem reads_functionField (draft : FunctionDraft) :
    Reads (functionField draft) (fun next shown => ∃ declaration,
      FieldText declaration shown ∧ Adds draft declaration next)
      (fun _ rest => Closed rest) := by
  apply (reads_fieldName_bind (fun name next shown => ∃ declaration,
    FieldNamed declaration name ∧ ValueText declaration shown ∧ Adds draft declaration next)
    (reads_namedFieldValue draft)).congr
  intro next shown
  constructor
  · intro read
    obtain ⟨name, rest, rfl, declaration, named, value, adds⟩ := read
    exact ⟨declaration, .named named value, adds⟩
  · intro found
    obtain ⟨declaration, text, adds⟩ := found
    cases text with
    | named named value => exact ⟨_, _, rfl, declaration, named, value, adds⟩

theorem fieldText_opens (declaration : FieldDeclaration) (shown : List Lexeme)
    (text : FieldText declaration shown) : Opens shown := by
  cases text with
  | named _ _ => exact ⟨_, _, rfl, rfl⟩

theorem structText_iff {name : StructName} {fields shown : List Lexeme} :
    StructText name fields shown ↔ ∃ opening, shown = opening ++ (fields ++ [.mark .rightParen]) ∧
      (opening = [.mark .leftParen] ∨ opening = [.identifier name.spelling, .mark .leftParen]) := by
  constructor
  · intro text
    cases text with
    | unnamed => exact ⟨_, rfl, Or.inl rfl⟩
    | named => exact ⟨_, rfl, Or.inr rfl⟩
  · intro found
    obtain ⟨opening, rfl, same⟩ := found
    rcases same with rfl | rfl
    · exact .unnamed
    · exact .named

theorem reads_completed (start : Location) (draft : FunctionDraft) :
    Reads (completed start draft)
      (fun instruction shown => draft.complete = .ok instruction ∧ shown = []) := by
  unfold completed
  cases draft.complete with
  | ok instruction =>
      apply (Reads.pure instruction).congr
      intro result shown
      simp [eq_comm]
  | error field =>
      apply Reads.refuseAt
      intro result shown
      simp

/-- A function up to its closing bracket: the draft of its fields. -/
def functionDraft : Reader FunctionDraft := do
  openStruct .function
  let draft ← items .rightParen functionField advances_functionField {}
  expect .rightParen (.closeStruct .function)
  return draft

theorem function_eq_bind :
    function = location >>= fun start => functionDraft >>= completed start := by
  simp only [function, functionDraft, bind_assoc, pure_bind]

theorem reads_functionDraft :
    Reads functionDraft (fun draft shown => ∃ fields body, Listing FieldText fields body ∧
      Steps Adds {} fields draft ∧ StructText .function body shown) := by
  have closing : Mark.leftParen.closing? = some .rightParen := rfl
  apply ((reads_openStruct .function).bind fun _ =>
    Reads.closedItems advances_functionField closing reads_functionField fieldText_opens {}
      (.closeStruct .function) Reads.pure).congr
  intro draft shown
  constructor
  · intro read
    obtain ⟨_, opening, _, rfl, opened, fields, final, inner, _, rfl, listed, steps, rfl, rfl⟩ :=
      read
    exact ⟨fields, inner, listed, steps, structText_iff.mpr ⟨opening, rfl, opened⟩⟩
  · intro found
    obtain ⟨fields, inner, listed, steps, struct⟩ := found
    obtain ⟨opening, rfl, opened⟩ := structText_iff.mp struct
    exact ⟨(), opening, _, rfl, opened, fields, draft, inner, [], rfl, listed, steps, rfl, rfl⟩

theorem reads_function :
    Reads function (fun instruction shown => FunctionText instruction shown) := by
  rw [function_eq_bind]
  apply Reads.location_bind
  intro start
  apply (reads_functionDraft.bind (reads_completed start)).congr
  intro instruction shown
  constructor
  · intro read
    obtain ⟨draft, _, _, rfl, ⟨fields, body, listed, steps, struct⟩, complete, rfl⟩ := read
    rw [List.append_nil]
    exact .declared listed (declares_iff.mpr ⟨draft, steps, complete⟩) struct
  · intro text
    cases text with
    | declared listed declares struct =>
        obtain ⟨draft, steps, complete⟩ := declares_iff.mp declares
        exact ⟨draft, shown, [], (List.append_nil _).symm, ⟨_, _, listed, steps, struct⟩,
          complete, rfl⟩

theorem structText_opens {name : StructName} {fields shown : List Lexeme}
    (text : StructText name fields shown) : Opens shown := by
  cases text with
  | unnamed => exact ⟨_, _, rfl, rfl⟩
  | named => exact ⟨_, _, rfl, rfl⟩

theorem steps_push_iff {before final : Array Instruction} {instructions : List Instruction} :
    Steps (fun (before : Array Instruction) instruction next => next = before.push instruction)
      before instructions final ↔ final.toList = before.toList ++ instructions := by
  constructor
  · intro steps
    induction steps with
    | nil => simp
    | cons pushed _ induction =>
        rw [induction, pushed]
        simp
  · intro same
    induction instructions generalizing before with
    | nil =>
        rw [List.append_nil] at same
        rw [Array.toList_inj.mp same]
        exact .nil
    | cons instruction later induction =>
        refine .cons rfl (induction ?_)
        rw [same]
        simp

theorem functionText_opens (instruction : Instruction) (shown : List Lexeme)
    (text : FunctionText instruction shown) : Opens shown := by
  cases text with
  | declared _ _ struct => exact structText_opens struct

/-- A function behind those before it. -/
theorem reads_functionBehind (before : Array Instruction) :
    Reads (do return before.push (← function))
      (fun next shown => ∃ instruction, FunctionText instruction shown ∧
        next = before.push instruction)
      (fun _ rest => Closed rest) := by
  refine ((reads_function.map before.push).congr ?_).wherever
  intro next shown
  constructor
  · intro read
    obtain ⟨instruction, same, text⟩ := read
    exact ⟨instruction, text, same⟩
  · intro found
    obtain ⟨instruction, text, same⟩ := found
    exact ⟨instruction, same, text⟩

theorem reads_functions :
    Reads functions (fun instructions shown => ∃ inner,
      shown = .mark .leftBracket :: (inner ++ [.mark .rightBracket]) ∧
        Listing FunctionText instructions.toList inner) := by
  have closing : Mark.leftBracket.closing? = some .rightBracket := rfl
  apply ((Reads.expect .leftBracket .openFunctions).bind fun _ =>
    Reads.closedItems _ closing reads_functionBehind functionText_opens #[] .closeFunctions
      Reads.pure).congr
  intro instructions shown
  constructor
  · intro read
    obtain ⟨_, _, _, rfl, rfl, things, final, inner, _, rfl, listed, steps, rfl, rfl⟩ := read
    obtain rfl : instructions.toList = things := by simpa using steps_push_iff.mp steps
    exact ⟨inner, rfl, listed⟩
  · intro found
    obtain ⟨inner, rfl, listed⟩ := found
    exact ⟨(), [_], _, rfl, rfl, instructions.toList, instructions, inner, [], rfl, listed,
      steps_push_iff.mpr (by simp), rfl, rfl⟩

/-! ## Catalogs -/

/-- The function list before and after a field of a catalog. -/
inductive ListStep (list : Option (Array Instruction)) :
    CatalogField → Option (Array Instruction) → Prop where
  | functions {instructions : Array Instruction} :
      list = none →
      ListStep list (.functions instructions.toList) (some instructions)
  | other (name : Bytes) : ListStep list (.other name) list

/-- The value behind the name of a field of a catalog. -/
theorem reads_catalogFieldValue (list : Option (Array Instruction)) (found : FieldName) :
    Reads
      (if found.name = functionsField then
        if list.isSome then refuseAt found.location (.duplicateField found.name)
        else do return some (← functions)
      else do
        skipValue
        return list)
      (fun next shown => ∃ field, ListStep list field next ∧
        CatalogFieldText field (.identifier found.name :: .mark .colon :: shown))
      (fun _ rest => Closed rest) := by
  by_cases isList : found.name = functionsField
  · rw [if_pos isList, isList]
    cases list with
    | some earlier =>
        apply Reads.refuseAt
        intro next shown found
        obtain ⟨field, step, text⟩ := found
        cases step with
        | functions absent => cases absent
        | other name =>
            cases text with
            | other unlike _ => exact (unlike rfl).elim
    | none =>
        refine ((reads_functions.map some).congr ?_).wherever
        intro next shown
        constructor
        · intro read
          obtain ⟨instructions, rfl, inner, rfl, listed⟩ := read
          exact ⟨_, .functions rfl, .functions listed⟩
        · intro found
          obtain ⟨field, step, text⟩ := found
          cases step with
          | functions absent =>
              cases text with
              | functions listed => exact ⟨_, rfl, _, rfl, listed⟩
          | other name =>
              cases text with
              | other unlike _ => exact (unlike rfl).elim
  · rw [if_neg isList]
    apply (reads_skipValue.map fun _ => list).congr
    intro next shown
    constructor
    · intro read
      obtain ⟨_, rfl, skipped⟩ := read
      exact ⟨.other found.name, .other found.name, .other isList skipped⟩
    · intro recorded
      obtain ⟨field, step, text⟩ := recorded
      generalize found.name = name at isList text
      cases text with
      | functions listed => exact (isList rfl).elim
      | other _ skipped =>
          cases step
          exact ⟨(), rfl, skipped⟩

theorem reads_catalogField (list : Option (Array Instruction)) :
    Reads (catalogField list) (fun next shown => ∃ field,
      CatalogFieldText field shown ∧ ListStep list field next)
      (fun _ rest => Closed rest) := by
  apply (reads_fieldName_bind (fun name next shown => ∃ field, ListStep list field next ∧
    CatalogFieldText field (.identifier name :: .mark .colon :: shown))
    (reads_catalogFieldValue list)).congr
  intro next shown
  constructor
  · intro read
    obtain ⟨name, rest, rfl, field, step, text⟩ := read
    exact ⟨field, text, step⟩
  · intro found
    obtain ⟨field, text, step⟩ := found
    cases text with
    | functions listed => exact ⟨_, _, rfl, _, step, .functions listed⟩
    | other unlike skipped => exact ⟨_, _, rfl, _, step, .other unlike skipped⟩

theorem steps_list_iff {list final : Option (Array Instruction)} {fields : List CatalogField} :
    Steps ListStep list fields final ↔
      (list.map Array.toList).toList ++ fields.filterMap CatalogField.list? =
        (final.map Array.toList).toList := by
  induction fields generalizing list with
  | nil =>
      constructor
      · intro steps
        cases steps
        exact List.append_nil _
      · intro same
        have unchanged : list = final := by
          have heads := congrArg List.head? same
          rw [List.filterMap_nil, List.append_nil, Option.head?_toList,
            Option.head?_toList] at heads
          exact Option.map_injective (fun _ _ => Array.toList_inj.mp) heads
        rw [unchanged]
        exact .nil
  | cons field later induction =>
      cases field with
      | functions instructions =>
          constructor
          · intro steps
            cases steps with
            | cons step steps =>
                cases step with
                | functions absent =>
                    rw [absent]
                    exact induction.mp steps
          · intro same
            cases list with
            | some earlier => cases final <;> simp [CatalogField.list?] at same
            | none =>
                have step : ListStep none (.functions instructions)
                    (some instructions.toArray) := .functions rfl
                exact .cons step (induction.mpr same)
      | other name =>
          constructor
          · intro steps
            cases steps with
            | cons step steps =>
                cases step
                exact induction.mp steps
          · intro same
            exact .cons (.other name) (induction.mpr same)

theorem reads_listed (close : Location) (list : Option (Array Instruction)) :
    Reads (listed close list)
      (fun instructions shown => list = some instructions ∧ shown = []) := by
  cases list with
  | none =>
      apply Reads.refuseAt
      intro result shown
      simp
  | some instructions =>
      apply (Reads.pure instructions).congr
      intro result shown
      simp [eq_comm]

theorem catalogFieldText_opens (field : CatalogField) (shown : List Lexeme)
    (text : CatalogFieldText field shown) : Opens shown := by
  cases text with
  | functions _ => exact ⟨_, _, rfl, rfl⟩
  | other _ _ => exact ⟨_, _, rfl, rfl⟩

/-- The fields of a catalog and its closing bracket. -/
theorem reads_catalogFields :
    Reads
      (do
        let list ← items .rightParen catalogField advances_catalogField none
        let close ← location
        expect .rightParen (.closeStruct .catalog)
        listed close list)
      (fun instructions shown => ∃ fields inner, shown = inner ++ [.mark .rightParen] ∧
        Listing CatalogFieldText fields inner ∧ Steps ListStep none fields (some instructions)) := by
  have closing : Mark.leftParen.closing? = some .rightParen := rfl
  refine ((Reads.items _ closing reads_catalogField catalogFieldText_opens none).bindBefore
    (fun list => Reads.location_bind fun close =>
      (Reads.expect .rightParen (.closeStruct .catalog)).bind fun _ => reads_listed close list)
    ?_).congr ?_
  · intro _ _ shown rest closed _
    obtain ⟨_, _, _, rfl, rfl, _⟩ := closed
    rfl
  · intro instructions shown
    constructor
    · intro read
      obtain ⟨list, inner, _, rfl, ⟨fields, text, steps⟩, _, _, _, rfl, rfl, rfl, rfl⟩ := read
      exact ⟨fields, inner, rfl, text, steps⟩
    · intro found
      obtain ⟨fields, inner, rfl, text, steps⟩ := found
      exact ⟨some instructions, inner, _, rfl, ⟨fields, text, steps⟩, (), [_], [], rfl, rfl,
        rfl, rfl⟩

theorem reads_catalogBody :
    Reads catalogBody (fun instructions shown => CatalogText instructions.toList shown) := by
  apply ((reads_openStruct .catalog).bind fun _ => reads_catalogFields).congr
  intro instructions shown
  constructor
  · intro read
    obtain ⟨_, opening, _, rfl, opened, fields, inner, rfl, text, steps⟩ := read
    exact .declared text (steps_list_iff.mp steps) (structText_iff.mpr ⟨opening, rfl, opened⟩)
  · intro text
    cases text with
    | @declared fields inner _ text once struct =>
        obtain ⟨opening, rfl, opened⟩ := structText_iff.mp struct
        exact ⟨(), opening, _, rfl, opened, fields, inner, rfl, text,
          steps_list_iff.mpr once⟩

theorem endOfInput_run {stream rest : TokenStream} :
    endOfInput.run stream = .ok ((), rest) ↔
      rest = stream ∧ stream.tokens = [] ∧ stream.ending.fault = none := by
  have atEnd : stream.kind = .endOfInput ↔ stream.tokens = [] ∧ stream.ending.fault = none := by
    unfold TokenStream.kind
    cases stream.tokens with
    | nil => cases stream.ending.fault <;> simp
    | cons token tokens =>
        obtain ⟨lexeme, place⟩ := token
        cases lexeme <;> simp [Lexeme.kind]
  rw [← atEnd]
  change (if stream.kind ≠ .endOfInput then refuse .trailingContent else pure ()).run stream =
    _ ↔ _
  by_cases finished : stream.kind = .endOfInput
  · rw [if_neg (not_not_intro finished)]
    constructor
    · intro read
      cases read
      exact ⟨rfl, finished⟩
    · intro found
      rw [found.1]
      rfl
  · rw [if_pos finished]
    constructor
    · intro read
      cases read
    · intro found
      exact (finished found.2).elim

/-- A catalog takes up all the tokens of its source. -/
theorem catalog_run {stream rest : TokenStream} {instructions : List Instruction} :
    catalog.run stream = .ok (instructions, rest) ↔
      stream.ending.fault = none ∧ CatalogText instructions stream.lexemes ∧
        rest = ⟨[], stream.ending⟩ := by
  unfold catalog
  constructor
  · intro read
    obtain ⟨declared, between, readBody, read⟩ := run_bind_eq_ok_iff.mp read
    obtain ⟨_, last, readEnd, read⟩ := run_bind_eq_ok_iff.mp read
    cases read
    obtain ⟨rfl, empty, sound⟩ := endOfInput_run.mp readEnd
    obtain ⟨used, rfl, text⟩ := reads_catalogBody.sound readBody
    obtain ⟨tokens, ending⟩ := rest
    obtain rfl : tokens = [] := empty
    refine ⟨sound, ?_, rfl⟩
    simpa [TokenStream.lexemes, TokenStream.behind] using text
  · intro found
    obtain ⟨sound, text, rfl⟩ := found
    obtain ⟨tokens, ending⟩ := stream
    have body : catalogBody.run ⟨tokens, ending⟩ =
        .ok (instructions.toArray, ⟨[], ending⟩) := by
      have split : (⟨tokens, ending⟩ : TokenStream) = TokenStream.behind tokens ⟨[], ending⟩ := by
        simp [TokenStream.behind]
      rw [split]
      exact reads_catalogBody.complete text trivial fun _ => sound
    refine run_bind_eq_ok_iff.mpr ⟨_, _, body, ?_⟩
    refine run_bind_eq_ok_iff.mpr ⟨(), _, endOfInput_run.mpr ⟨rfl, rfl, sound⟩, ?_⟩
    rfl

end Reader

/-- The text of a catalog is not the beginning of another one's: the reader stops at its
last bracket, whatever follows. -/
theorem catalogText_append {first second : List Instruction} {front back : List Lexeme}
    (frontText : CatalogText first front) (allText : CatalogText second (front ++ back)) :
    back = [] := by
  have whole : front ++ back = front ++ back ++ [] := (List.append_nil _).symm
  exact (Reader.reads_catalogBody.unique frontText trivial allText trivial whole).2.2

theorem TokenStream.instructions_eq_ok_iff {stream : TokenStream}
    {instructions : List Instruction} :
    stream.instructions = .ok instructions ↔
      stream.ending.fault = none ∧ CatalogText instructions stream.lexemes := by
  have unfolded : stream.instructions = .ok instructions ↔
      stream.Readable ∧ ∃ rest, Reader.catalog.run stream = .ok (instructions, rest) := by
    unfold TokenStream.instructions
    cases checked : stream.checked with
    | error refusal =>
        constructor
        · intro read
          cases read
        · intro found
          rw [checked_eq_ok_iff.mpr ⟨rfl, found.1⟩] at checked
          cases checked
    | ok passed =>
        obtain ⟨rfl, readable⟩ := checked_eq_ok_iff.mp checked
        cases read : Reader.catalog.run stream with
        | error refusal => simp [bind, Except.bind, read]
        | ok result =>
            obtain ⟨found, rest⟩ := result
            simp [bind, Except.bind, pure, Except.pure, read, readable]
  rw [unfolded]
  simp only [Reader.catalog_run]
  constructor
  · intro found
    obtain ⟨-, rest, sound, text, -⟩ := found
    exact ⟨sound, text⟩
  · intro found
    exact ⟨fun _ => found.1, _, found.1, found.2, rfl⟩

theorem instructions_eq_ok_iff_lexed {file : UInt32} {source : Bytes}
    {instructions : List Instruction} :
    Source.instructions file source = .ok instructions ↔
      (lexed source).fault = none ∧ CatalogText instructions (lexed source).lexemes := by
  unfold Source.instructions
  rw [TokenStream.instructions_eq_ok_iff, TokenStream.fault_ofSource,
    TokenStream.lexemes_ofSource]

/-- A source declares instructions exactly if its tokens, up to its end, are the text of a
catalog of these instructions. -/
theorem instructions_eq_ok_iff_catalogText (file : UInt32) (source : Bytes)
    (instructions : List Instruction) :
    Source.instructions file source = .ok instructions ↔
      (TokenStream.ofSource file source).ending.fault = none ∧
        CatalogText instructions (TokenStream.ofSource file source).lexemes :=
  TokenStream.instructions_eq_ok_iff

end OpcodeCatalog.Source

import OpcodeCatalog.Source.Document

/-!
# Readers that are put together alike

Every reader of catalogs is put together from a few readers in a few ways.  Two
readers are alike if they are put together in the same way and only the places
that they tell differ, those of the second one being moved.  What holds of the
parts and is kept when they are put together then holds of all readers, by one
induction.
-/

namespace OpcodeCatalog.Source.Reader

/-- `other` is put together like `reader`, with moved places wherever that one has places. -/
inductive Alike (move : Location → Location) : {α : Type} → Reader α → Reader α → Prop where
  | pure {α : Type} (value : α) : Alike move (Pure.pure value) (Pure.pure value)
  | refuseAt {α : Type} (place : Location) (reason : Reason) :
      Alike move (Reader.refuseAt place reason : Reader α)
        (Reader.refuseAt (move place) reason)
  | refuse {α : Type} (reason : Reason) :
      Alike move (Reader.refuse reason : Reader α) (Reader.refuse reason)
  | take {α : Type} (wanted : Wanted) (pick : Lexeme → Option (Except Reason α)) :
      Alike move (Reader.take wanted pick) (Reader.take wanted pick)
  | takeMark? (mark : Mark) : Alike move (Reader.takeMark? mark) (Reader.takeMark? mark)
  | endOfInput : Alike move Reader.endOfInput Reader.endOfInput
  | bind {α β : Type} {first first' : Reader α} {second second' : α → Reader β} :
      Alike move first first' →
      (∀ value, Alike move (second value) (second' value)) →
      Alike move (first >>= second) (first' >>= second')
  | location_bind {α : Type} {second second' : Location → Reader α} :
      (∀ place, Alike move (second place) (second' (move place))) →
      Alike move (location >>= second) (location >>= second')
  | items {σ : Type} {close : Mark} {item : σ → Reader σ}
      (advances : ∀ state, (item state).Advances) :
      (∀ state, Alike move (item state) (item state)) →
      ∀ state, Alike move (Reader.items close item advances state)
        (Reader.items close item advances state)

variable {move : Location → Location}

namespace Alike

theorem expect (mark : Mark) (place : Place) :
    Alike move (Reader.expect mark place) (Reader.expect mark place) :=
  take _ _

theorem ite {condition : Prop} [Decidable condition] {first first' second second' : Reader α}
    (yes : Alike move first first') (no : Alike move second second') :
    Alike move (if condition then first else second)
      (if condition then first' else second') := by
  split
  · exact yes
  · exact no

end Alike

theorem alike_integer (type : IntegerType) (field : Bytes) :
    Alike move (integer type field) (integer type field) :=
  .take _ _

theorem alike_unsigned (field : Bytes) : Alike move (unsigned field) (unsigned field) :=
  (alike_integer _ _).bind fun _ => .pure _

theorem alike_signed (field : Bytes) : Alike move (signed field) (signed field) :=
  (alike_integer _ _).bind fun _ => .pure _

theorem alike_string (field : Bytes) : Alike move (string field) (string field) :=
  .take _ _

theorem alike_codeBlock : Alike move codeBlock codeBlock :=
  .take _ _

theorem alike_openStruct (name : StructName) : Alike move (openStruct name) (openStruct name) := by
  apply (Alike.take _ _).bind
  intro named
  exact .ite (.expect _ _) (.pure ())

/-- The name of a field is read with the place where it stands. -/
theorem alike_fieldName_bind {second second' : FieldName → Reader α}
    (late : ∀ name place, Alike move (second ⟨name, place⟩) (second' ⟨name, move place⟩)) :
    Alike move (fieldName >>= second) (fieldName >>= second') := by
  unfold fieldName
  simp only [bind_assoc, pure_bind]
  apply Alike.location_bind
  intro place
  exact (Alike.take _ _).bind fun name => (Alike.expect _ _).bind fun _ => late name place

theorem alike_optionalComma :
    Alike move (discard (takeMark? .comma)) (discard (takeMark? .comma)) :=
  (Alike.takeMark? .comma).bind fun _ => .pure _

theorem alike_slotValue : Alike move slotValue slotValue :=
  (Alike.expect _ _).bind fun _ => (alike_unsigned _).bind fun _ => (Alike.expect _ _).bind fun _ =>
    (alike_signed _).bind fun _ => alike_optionalComma.bind fun _ =>
      (Alike.expect _ _).bind fun _ => .pure _

theorem alike_slotName : Alike move slotName slotName :=
  (Alike.expect _ _).bind fun _ => (alike_unsigned _).bind fun _ => (Alike.expect _ _).bind fun _ =>
    (alike_string _).bind fun _ => alike_optionalComma.bind fun _ =>
      (Alike.expect _ _).bind fun _ => .pure _

theorem alike_enter (values : NamedValues) (place : Location) (entry : NamedValue) :
    Alike move (enter values place entry) (enter values (move place) entry) := by
  unfold enter
  split
  · exact .pure _
  · exact .refuseAt _ _
  · exact .refuseAt _ _

theorem alike_namedValue (values : NamedValues) :
    Alike move (namedValue values) (namedValue values) := by
  apply Alike.location_bind
  intro place
  exact alike_slotValue.bind fun _ => (Alike.expect _ _).bind fun _ =>
    alike_slotName.bind fun _ => alike_enter _ _ _

theorem alike_namedValues : Alike move namedValues namedValues :=
  (Alike.expect _ _).bind fun _ => (Alike.items _ alike_namedValue _).bind fun _ =>
    (Alike.expect _ _).bind fun _ => .pure _

section Skipping

variable {inner : Reader Unit} (advances : inner.Advances) (alike : Alike move inner inner)

include alike

theorem alike_skipItem : Alike move (skipItem inner) (skipItem inner) := by
  apply alike.bind
  intro _
  apply (Alike.takeMark? _).bind
  intro paired
  exact .ite alike (.pure ())

theorem alike_skipItems (close : Mark) :
    Alike move (skipItems inner advances close) (skipItems inner advances close) :=
  (Alike.items _ (fun _ => alike_skipItem alike) _).bind fun _ => .expect _ _

theorem alike_skipBehind (front : Lexeme) :
    Alike move (skipBehind inner advances front) (skipBehind inner advances front) := by
  unfold skipBehind
  split
  · split
    · exact alike_skipItems advances alike _
    · exact .pure ()
  · apply (Alike.takeMark? _).bind
    intro bracketed
    exact .ite (alike_skipItems advances alike _) (.pure ())
  · exact .pure ()

end Skipping

theorem alike_skipValueWithin (depth : Nat) :
    Alike move (skipValueWithin depth).1 (skipValueWithin depth).1 := by
  induction depth with
  | zero => exact .refuse _
  | succ depth induction =>
      apply (Alike.take _ _).bind
      intro front
      exact alike_skipBehind _ induction front

theorem alike_skipValue : Alike move skipValue skipValue :=
  alike_skipValueWithin maxDepth

theorem alike_functionFieldValue (draft : FunctionDraft) (field : FunctionField) :
    Alike move (functionFieldValue draft field) (functionFieldValue draft field) := by
  cases field with
  | id => exact (alike_unsigned _).bind fun _ => .pure _
  | size => exact (alike_unsigned _).bind fun _ => .pure _
  | args => exact (alike_string _).bind fun _ => .pure _
  | name => exact (alike_string _).bind fun _ => .pure _
  | codeBlock => exact alike_codeBlock.bind fun _ => .pure _
  | namedValues => exact alike_namedValues.bind fun _ => .pure _

theorem alike_namedFieldValue (draft : FunctionDraft) (name : Bytes) (place : Location) :
    Alike move (namedFieldValue draft ⟨name, place⟩)
      (namedFieldValue draft ⟨name, move place⟩) := by
  simp only [namedFieldValue]
  cases FunctionField.ofSpelling? name with
  | none => exact alike_skipValue.bind fun _ => .pure _
  | some field => exact .ite (.refuseAt _ _) (alike_functionFieldValue _ _)

theorem alike_functionField (draft : FunctionDraft) :
    Alike move (functionField draft) (functionField draft) :=
  alike_fieldName_bind (alike_namedFieldValue draft)

theorem alike_completed (place : Location) (draft : FunctionDraft) :
    Alike move (completed place draft) (completed (move place) draft) := by
  unfold completed
  split
  · exact .pure _
  · exact .refuseAt _ _

theorem alike_function : Alike move function function := by
  apply Alike.location_bind
  intro place
  exact (alike_openStruct _).bind fun _ => (Alike.items _ alike_functionField _).bind fun _ =>
    (Alike.expect _ _).bind fun _ => alike_completed _ _

theorem alike_functions : Alike move functions functions := by
  have alike : ∀ before : Array Instruction,
      Alike move (do return before.push (← function)) (do return before.push (← function)) := by
    intro before
    exact alike_function.bind fun _ => .pure _
  exact (Alike.expect _ _).bind fun _ => (Alike.items _ alike _).bind fun _ =>
    (Alike.expect _ _).bind fun _ => .pure _

theorem alike_catalogField (list : Option (Array Instruction)) :
    Alike move (catalogField list) (catalogField list) := by
  apply alike_fieldName_bind
  intro name place
  apply Alike.ite
  · exact .ite (.refuseAt _ _) (alike_functions.bind fun _ => .pure _)
  · exact alike_skipValue.bind fun _ => .pure _

theorem alike_listed (place : Location) (list : Option (Array Instruction)) :
    Alike move (listed place list) (listed (move place) list) := by
  cases list with
  | none => exact .refuseAt _ _
  | some instructions => exact .pure _

theorem alike_catalogBody : Alike move catalogBody catalogBody := by
  apply (alike_openStruct _).bind
  intro _
  apply (Alike.items _ alike_catalogField _).bind
  intro list
  apply Alike.location_bind
  intro place
  exact (Alike.expect _ _).bind fun _ => alike_listed _ _

theorem alike_catalog : Alike move catalog catalog :=
  alike_catalogBody.bind fun _ => Alike.endOfInput.bind fun _ => .pure _

end OpcodeCatalog.Source.Reader

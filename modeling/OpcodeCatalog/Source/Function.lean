import OpcodeCatalog.Source.FunctionDraft
import OpcodeCatalog.Source.NamedValueList
import OpcodeCatalog.Source.SkippedValue

/-!
# Functions

A function declares an instruction by six fields in any order, among which
further fields may stand.  A field that comes twice is refused at its second
name, a function without one of the six where it starts.
-/

namespace OpcodeCatalog.Source.Reader

/-- The value of a field that functions have. -/
def functionFieldValue (draft : FunctionDraft) (field : FunctionField) : Reader FunctionDraft := do
  match field with
  | .id => return { draft with id := some (← unsigned field.spelling) }
  | .size => return { draft with size := some (← unsigned field.spelling) }
  | .args => return { draft with args := some (← string field.spelling) }
  | .name => return { draft with name := some (← string field.spelling) }
  | .codeBlock => return { draft with codeBlock := some (← codeBlock) }
  | .namedValues => return { draft with namedValues := some (← namedValues) }

theorem advances_functionFieldValue (draft : FunctionDraft) (field : FunctionField) :
    (functionFieldValue draft field).Advances := by
  cases field with
  | id => exact (advances_unsigned _).bind fun _ => keeps_pure _
  | size => exact (advances_unsigned _).bind fun _ => keeps_pure _
  | args => exact (advances_string _).bind fun _ => keeps_pure _
  | name => exact (advances_string _).bind fun _ => keeps_pure _
  | codeBlock => exact advances_codeBlock.bind fun _ => keeps_pure _
  | namedValues => exact advances_namedValues.bind fun _ => keeps_pure _

/-- The value behind the name of a field, which is skipped where functions have no such
field. -/
def namedFieldValue (draft : FunctionDraft) (found : FieldName) : Reader FunctionDraft := do
  match FunctionField.ofSpelling? found.name with
  | none =>
    skipValue
    return draft
  | some field =>
    if draft.has field then refuseAt found.location (.duplicateField found.name)
    else functionFieldValue draft field

theorem keeps_namedFieldValue (draft : FunctionDraft) (found : FieldName) :
    (namedFieldValue draft found).Keeps := by
  unfold namedFieldValue
  split
  · exact advances_skipValue.keeps.bind fun _ => keeps_pure _
  · split
    · exact (advances_refuseAt _ _).keeps
    · exact (advances_functionFieldValue _ _).keeps

/-- A field of a function, added to those before it. -/
def functionField (draft : FunctionDraft) : Reader FunctionDraft := do
  namedFieldValue draft (← fieldName)

theorem advances_functionField (draft : FunctionDraft) : (functionField draft).Advances :=
  advances_fieldName.bind fun _ => keeps_namedFieldValue _ _

/-- The instruction that a draft has become, or a refusal where its function starts. -/
def completed (start : Location) (draft : FunctionDraft) : Reader Instruction :=
  match draft.complete with
  | .ok instruction => return instruction
  | .error field => refuseAt start (.missingField field.spelling .function)

theorem keeps_completed (start : Location) (draft : FunctionDraft) :
    (completed start draft).Keeps := by
  unfold completed
  split
  · exact keeps_pure _
  · exact (advances_refuseAt _ _).keeps

def function : Reader Instruction := do
  let start ← location
  openStruct .function
  let draft ← items .rightParen functionField advances_functionField {}
  expect .rightParen (.closeStruct .function)
  completed start draft

theorem advances_function : function.Advances :=
  keeps_location.bind_advances fun _ => (advances_openStruct _).bind fun _ =>
    (keeps_items _ _ _ _).bind fun _ => (advances_expect _ _).keeps.bind fun _ =>
      keeps_completed _ _

/-- The functions between square brackets, in order. -/
def functions : Reader (Array Instruction) := do
  expect .leftBracket .openFunctions
  let instructions ← items .rightBracket (fun before => return before.push (← function))
    (fun _ => advances_function.bind fun _ => keeps_pure _) #[]
  expect .rightBracket .closeFunctions
  return instructions

theorem advances_functions : functions.Advances :=
  (advances_expect _ _).bind fun _ => (keeps_items _ _ _ _).bind fun _ =>
    (advances_expect _ _).keeps.bind fun _ => keeps_pure _

end OpcodeCatalog.Source.Reader

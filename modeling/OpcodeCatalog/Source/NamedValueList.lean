import OpcodeCatalog.Source.Field

/-!
# Lists of named values

An entry is written as a slot and a value, a colon, and a slot and a name.  It
is refused where it starts if its value is already named or its name bound.
-/

namespace OpcodeCatalog.Source.Reader

private def slotField : Bytes := ascii "slot"

/-- A slot and a value in brackets; a comma may follow the value. -/
def slotValue : Reader SlotValue := do
  expect .leftParen .openEntryValue
  let slot ← unsigned slotField
  expect .comma .insideEntryValue
  let value ← signed (ascii "value")
  discard <| takeMark? .comma
  expect .rightParen .closeEntryValue
  return ⟨slot, value⟩

theorem keeps_discard {reader : Reader α} (keeps : reader.Keeps) : (discard reader).Keeps :=
  keeps.bind fun _ => keeps_pure _

theorem advances_slotValue : slotValue.Advances :=
  (advances_expect _ _).bind fun _ => (advances_unsigned _).keeps.bind fun _ =>
    (advances_expect _ _).keeps.bind fun _ => (advances_signed _).keeps.bind fun _ =>
      (keeps_discard (keeps_takeMark? _)).bind fun _ =>
        (advances_expect _ _).keeps.bind fun _ => keeps_pure _

/-- A slot and a name in brackets; a comma may follow the name. -/
def slotName : Reader SlotName := do
  expect .leftParen .openEntryName
  let slot ← unsigned slotField
  expect .comma .insideEntryName
  let name ← string (ascii "name")
  discard <| takeMark? .comma
  expect .rightParen .closeEntryName
  return ⟨slot, name⟩

theorem advances_slotName : slotName.Advances :=
  (advances_expect _ _).bind fun _ => (advances_unsigned _).keeps.bind fun _ =>
    (advances_expect _ _).keeps.bind fun _ => (advances_string _).keeps.bind fun _ =>
      (keeps_discard (keeps_takeMark? _)).bind fun _ =>
        (advances_expect _ _).keeps.bind fun _ => keeps_pure _

/-- The named values with one entry more, or a refusal where that entry starts. -/
def enter (values : NamedValues) (start : Location) (entry : NamedValue) : Reader NamedValues :=
  match values.insert entry with
  | (.inserted, values) => return values
  | (.duplicateValue, _) => refuseAt start (.valueAlreadyNamed entry.value)
  | (.duplicateName, _) => refuseAt start (.nameAlreadyBound entry.name)

theorem keeps_enter (values : NamedValues) (start : Location) (entry : NamedValue) :
    (enter values start entry).Keeps := by
  unfold enter
  split
  · exact keeps_pure _
  · exact (advances_refuseAt _ _).keeps
  · exact (advances_refuseAt _ _).keeps

/-- An entry, added to those before it. -/
def namedValue (values : NamedValues) : Reader NamedValues := do
  let start ← location
  let value ← slotValue
  expect .colon .afterEntryValue
  let name ← slotName
  enter values start ⟨value, name⟩

theorem advances_namedValue (values : NamedValues) : (namedValue values).Advances :=
  keeps_location.bind_advances fun _ => advances_slotValue.bind fun _ =>
    (advances_expect _ _).keeps.bind fun _ => advances_slotName.keeps.bind fun _ =>
      keeps_enter _ _ _

def namedValues : Reader NamedValues := do
  expect .leftBrace .openNamedValues
  let values ← items .rightBrace namedValue advances_namedValue .empty
  expect .rightBrace .closeNamedValues
  return values

theorem advances_namedValues : namedValues.Advances :=
  (advances_expect _ _).bind fun _ => (keeps_items _ _ _ _).bind fun _ =>
    (advances_expect _ _).keeps.bind fun _ => keeps_pure _

end OpcodeCatalog.Source.Reader

import OpcodeCatalog.Source.Function

/-!
# Catalog documents

A document is one structure, whose field `functions` lists the instructions of
the catalog.  It may hold further fields, but nothing may follow it.
-/

namespace OpcodeCatalog.Source

namespace Reader

/-- A field of a catalog.  What it carries on is the function list, once there is one. -/
def catalogField (list : Option (Array Instruction)) : Reader (Option (Array Instruction)) := do
  let found ← fieldName
  if found.name = functionsField then
    if list.isSome then refuseAt found.location (.duplicateField found.name)
    else return some (← functions)
  else
    skipValue
    return list

theorem advances_catalogField (list : Option (Array Instruction)) :
    (catalogField list).Advances := by
  refine advances_fieldName.bind fun found => ?_
  split
  · split
    · exact (advances_refuseAt _ _).keeps
    · exact advances_functions.keeps.bind fun _ => keeps_pure _
  · exact advances_skipValue.keeps.bind fun _ => keeps_pure _

def endOfInput : Reader Unit := do
  if (← get).kind ≠ .endOfInput then refuse .trailingContent

/-- The function list of a catalog, or a refusal where the catalog closes without one. -/
def listed (close : Location) : Option (Array Instruction) → Reader (Array Instruction)
  | none => refuseAt close (.missingField functionsField .catalog)
  | some instructions => return instructions

/-- A catalog up to its closing bracket, whatever follows. -/
def catalogBody : Reader (Array Instruction) := do
  openStruct .catalog
  let list ← items .rightParen catalogField advances_catalogField none
  let close ← location
  expect .rightParen (.closeStruct .catalog)
  listed close list

/-- The instructions of a catalog that takes up the whole source. -/
def catalog : Reader (List Instruction) := do
  let instructions ← catalogBody
  endOfInput
  return instructions.toList

end Reader

/-- The instructions that a token stream declares, or why it declares none. -/
def TokenStream.instructions (stream : TokenStream) : Except Refusal (List Instruction) := do
  let (instructions, _) ← Reader.catalog.run (← stream.checked)
  return instructions

/-- The instructions that a source declares, or why it declares none. -/
def instructions (file : UInt32) (source : Bytes) : Except Refusal (List Instruction) :=
  (TokenStream.ofSource file source).instructions

end OpcodeCatalog.Source

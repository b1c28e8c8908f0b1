import OpcodeCatalog.Source.Reader

/-!
# Fields

Readers of what structures are made of: their opening, the names of their
fields, and the integers, strings and code blocks that fields hold.  A value
that a field cannot hold is refused where it stands, before it is used up.
-/

namespace OpcodeCatalog.Source

namespace IntegerType

def Holds : IntegerType → Int → Prop
  | unsigned32, value => 0 ≤ value ∧ value < 0x100000000
  | signed32, value => -0x80000000 ≤ value ∧ value < 0x80000000

instance (type : IntegerType) (value : Int) : Decidable (type.Holds value) := by
  cases type <;> exact inferInstanceAs (Decidable (_ ∧ _))

end IntegerType

namespace Reader

def integer (type : IntegerType) (field : Bytes) : Reader Int :=
  take (.integer field) fun
    | .integer value =>
      some (if type.Holds value then .ok value else .error (.outOfRange value field type))
    | _ => none

theorem advances_integer (type : IntegerType) (field : Bytes) : (integer type field).Advances :=
  advances_take _ _

def unsigned (field : Bytes) : Reader UInt32 := do
  return UInt32.ofNat (← integer .unsigned32 field).toNat

theorem advances_unsigned (field : Bytes) : (unsigned field).Advances :=
  (advances_integer _ _).bind fun _ => keeps_pure _

def signed (field : Bytes) : Reader Int32 := do
  return Int32.ofInt (← integer .signed32 field)

theorem advances_signed (field : Bytes) : (signed field).Advances :=
  (advances_integer _ _).bind fun _ => keeps_pure _

def string (field : Bytes) : Reader Bytes :=
  take (.string field) fun
    | .string text => some (.ok text)
    | _ => none

theorem advances_string (field : Bytes) : (string field).Advances :=
  advances_take _ _

def codeBlock : Reader CodeBlock :=
  take .codeBlock fun
    | .identifier text =>
      some (match CodeBlock.ofSpelling? text with
        | some block => .ok block
        | none => .error (.unknownCodeBlock text))
    | _ => none

theorem advances_codeBlock : codeBlock.Advances :=
  advances_take _ _

/-- The name of a structure, which need not be written, and its opening bracket. -/
def openStruct (name : StructName) : Reader Unit := do
  let named ← take (.mark .leftParen (.openStruct name)) fun
    | .mark .leftParen => some (.ok false)
    | .identifier text =>
      some (if text = name.spelling then .ok true else .error (.wrongStruct name text))
    | _ => none
  if named then expect .leftParen (.openStruct name)

theorem advances_openStruct (name : StructName) : (openStruct name).Advances := by
  refine (advances_take _ _).bind fun named => ?_
  split
  · exact (advances_expect _ _).keeps
  · exact keeps_pure ()

structure FieldName where
  name : Bytes
  location : Location

/-- The name of a field and the colon behind it. -/
def fieldName : Reader FieldName := do
  let location ← location
  let name ← take .fieldName fun
    | .identifier text => some (.ok text)
    | _ => none
  expect .colon (.afterField name)
  return ⟨name, location⟩

theorem advances_fieldName : fieldName.Advances :=
  keeps_location.bind_advances fun _ => (advances_take _ _).bind fun _ =>
    (advances_expect _ _).keeps.bind fun _ => keeps_pure _

end Reader

end OpcodeCatalog.Source

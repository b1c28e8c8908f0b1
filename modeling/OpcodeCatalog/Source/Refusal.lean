import OpcodeCatalog.Instruction
import OpcodeCatalog.Source.TokenStream

/-!
# Refusals

A source that is not a catalog is refused for one reason at one place.  The
reasons say what was wanted and what was found; their wording is here.
-/

namespace OpcodeCatalog.Source

/-- The structures whose name may stand in front of their fields. -/
inductive StructName where
  | catalog
  | function
  deriving DecidableEq

def StructName.spelling : StructName → Bytes
  | catalog => ascii "GameDB"
  | function => ascii "Function"

/-- The fields of a function, each of which it has exactly once. -/
inductive FunctionField where
  | id
  | size
  | args
  | name
  | codeBlock
  | namedValues
  deriving DecidableEq

namespace FunctionField

/-- In the order in which missing ones are told. -/
def all : List FunctionField :=
  [id, size, args, name, codeBlock, namedValues]

def spelling : FunctionField → Bytes
  | id => ascii "id"
  | size => ascii "size"
  | args => ascii "args"
  | name => ascii "name"
  | codeBlock => ascii "codeBlock"
  | namedValues => ascii "namedValues"

def ofSpelling? (text : Bytes) : Option FunctionField :=
  all.find? fun field => field.spelling == text

end FunctionField

/-- The field of a catalog that holds its functions. -/
def functionsField : Bytes := ascii "functions"

def quoteName (name : Bytes) : Bytes :=
  ascii "`" ++ name ++ ascii "`"

/-- What a mark is there for. -/
inductive Place where
  | openStruct (name : StructName)
  | closeStruct (name : StructName)
  | afterField (name : Bytes)
  | openFunctions
  | closeFunctions
  | openNamedValues
  | closeNamedValues
  | openEntryValue
  | insideEntryValue
  | closeEntryValue
  | afterEntryValue
  | openEntryName
  | insideEntryName
  | closeEntryName
  | closeSkipped
  deriving DecidableEq

def Place.phrase : Place → Bytes
  | openStruct name => ascii "to open " ++ quoteName name.spelling
  | closeStruct name => ascii "to close " ++ quoteName name.spelling
  | afterField name => ascii "after field " ++ quoteName name
  | openFunctions => ascii "to open the function list"
  | closeFunctions => ascii "to close the function list"
  | openNamedValues => ascii "to open `namedValues`"
  | closeNamedValues => ascii "to close `namedValues`"
  | openEntryValue => ascii "to open a named value key"
  | insideEntryValue => ascii "in a named value key"
  | closeEntryValue => ascii "to close a named value key"
  | afterEntryValue => ascii "after a named value key"
  | openEntryName => ascii "to open a named value name"
  | insideEntryName => ascii "in a named value name"
  | closeEntryName => ascii "to close a named value name"
  | closeSkipped => ascii "to close a skipped value"

/-- What a reader wants to find. -/
inductive Wanted where
  | mark (mark : Mark) (place : Place)
  | fieldName
  | integer (field : Bytes)
  | string (field : Bytes)
  | codeBlock
  | value
  deriving DecidableEq

def Wanted.phrase : Wanted → Bytes
  | mark symbol place => (TokenKind.mark symbol).description ++ ascii " " ++ place.phrase
  | fieldName => ascii "field name"
  | integer field => ascii "integer for " ++ quoteName field
  | string field => ascii "string for " ++ quoteName field
  | codeBlock => ascii "CodeBlock variant"
  | value => ascii "value"

/-- The integers that a field can hold. -/
inductive IntegerType where
  | unsigned32
  | signed32
  deriving DecidableEq

def IntegerType.spelling : IntegerType → Bytes
  | unsigned32 => ascii "u32"
  | signed32 => ascii "i32"

inductive Reason where
  | lexical (fault : LexicalFault)
  | unexpected (wanted : Wanted) (found : TokenKind)
  | wrongStruct (wanted : StructName) (found : Bytes)
  | duplicateField (name : Bytes)
  | missingField (name : Bytes) (struct : StructName)
  | trailingContent
  | outOfRange (value : Int) (field : Bytes) (type : IntegerType)
  | unknownCodeBlock (found : Bytes)
  | valueAlreadyNamed (value : SlotValue)
  | nameAlreadyBound (name : SlotName)
  | nestedTooDeeply
  deriving DecidableEq

def Reason.message : Reason → Bytes
  | lexical fault => fault.message
  | unexpected wanted found =>
    ascii "expected " ++ wanted.phrase ++ ascii ", found " ++ found.description
  | wrongStruct wanted found =>
    ascii "expected struct " ++ quoteName wanted.spelling ++ ascii ", found " ++ quoteName found
  | duplicateField name => ascii "duplicate field " ++ quoteName name
  | missingField name struct =>
    ascii "missing field " ++ quoteName name ++ ascii " in " ++ quoteName struct.spelling
  | trailingContent =>
    ascii "unexpected trailing content after " ++ quoteName StructName.catalog.spelling
  | outOfRange value field type =>
    ascii "integer " ++ decimalInt value ++ ascii " out of range for " ++ quoteName field ++
      ascii " (expected " ++ type.spelling ++ ascii ")"
  | unknownCodeBlock found =>
    ascii "unknown variant " ++ quoteName found ++ ascii ", expected one of " ++
      (ascii ", ").intercalate (CodeBlock.all.map fun block => quoteName block.spelling)
  | valueAlreadyNamed value =>
    ascii "value " ++ decimalInt value.value.toInt ++ ascii " of argument " ++
      decimal value.slot.toNat ++ ascii " is already named"
  | nameAlreadyBound name =>
    ascii "name '" ++ name.name ++ ascii "' of argument " ++ decimal name.slot.toNat ++
      ascii " is already bound"
  | nestedTooDeeply => ascii "value nested too deeply"

structure Refusal where
  reason : Reason
  location : Location
  deriving DecidableEq

/-- The diagnostic of a refused source. -/
def Refusal.diagnostic (refusal : Refusal) : Diagnostic :=
  (Finding.malformedSource refusal.reason.message).diagnostic refusal.location

end OpcodeCatalog.Source

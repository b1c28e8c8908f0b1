import OpcodeCatalog.Proofs.NamedValueIndices
import OpcodeCatalog.Source.SkippedValue

/-!
# The grammar of catalog sources

Which lexemes show a catalog, told without a reader.  Fields come in any order
and may stand among others; what is declared is kept apart from how it is
written, so `Declares` and `CatalogField.list?` say what a list of fields means
and the `Text` relations say which lexemes show it.
-/

namespace OpcodeCatalog.Source.Grammar

/-- Things with commas between them, where a last comma is allowed. -/
inductive Listing (text : α → List Lexeme → Prop) : List α → List Lexeme → Prop where
  | nil : Listing text [] []
  | last {thing : α} {shown : List Lexeme} :
      text thing shown →
      Listing text [thing] shown
  | cons {thing : α} {things : List α} {shown rest : List Lexeme} :
      text thing shown →
      Listing text things rest →
      Listing text (thing :: things) (shown ++ .mark .comma :: rest)

/-- A value, or two with a colon between them. -/
inductive SkippedItem (value : List Lexeme → Prop) : List Lexeme → Prop where
  | single {shown : List Lexeme} : value shown → SkippedItem value shown
  | pair {first second : List Lexeme} :
      value first → value second → SkippedItem value (first ++ .mark .colon :: second)

/-- The items between two brackets; a listing of them is a listing of their texts. -/
def SkippedItems (value : List Lexeme → Prop) (shown : List Lexeme) : Prop :=
  ∃ items, Listing (fun item text => text = item ∧ SkippedItem value item) items shown

/-- A value whose items, if it has any, are made of the given values. -/
inductive SkippedOver (value : List Lexeme → Prop) : List Lexeme → Prop where
  | integer (number : Int) : SkippedOver value [.integer number]
  | string (text : Bytes) : SkippedOver value [.string text]
  | word (word : Bytes) : SkippedOver value [.identifier word]
  | bracketed {opening closing : Mark} {items : List Lexeme} :
      opening.closing? = some closing →
      SkippedItems value items →
      SkippedOver value (.mark opening :: (items ++ [.mark closing]))
  | named (name : Bytes) {items : List Lexeme} :
      SkippedItems value items →
      SkippedOver value
        (.identifier name :: .mark .leftParen :: (items ++ [.mark .rightParen]))

/-- A value that nests at most `depth` deep. -/
def SkippedValue : Nat → List Lexeme → Prop
  | 0 => fun _ => False
  | depth + 1 => SkippedOver (SkippedValue depth)

/-- A slot and what is bound in it, where a comma may follow. -/
inductive SlotText (slot : UInt32) (bound : Lexeme) : List Lexeme → Prop where
  | plain : SlotText slot bound
      [.mark .leftParen, .integer slot.toNat, .mark .comma, bound, .mark .rightParen]
  | comma : SlotText slot bound
      [.mark .leftParen, .integer slot.toNat, .mark .comma, bound, .mark .comma,
        .mark .rightParen]

inductive NamedValueText (entry : NamedValue) : List Lexeme → Prop where
  | pair {value name : List Lexeme} :
      SlotText entry.value.slot (.integer entry.value.value.toInt) value →
      SlotText entry.name.slot (.string entry.name.name) name →
      NamedValueText entry (value ++ .mark .colon :: name)

/-- A field of a function: one of the six with its value, or another one. -/
inductive FieldDeclaration where
  | id (id : UInt32)
  | size (size : UInt32)
  | args (descriptor : Bytes)
  | name (name : Bytes)
  | codeBlock (block : CodeBlock)
  | namedValues (entries : List NamedValue)
  | other (name : Bytes)

def FieldDeclaration.field? : FieldDeclaration → Option FunctionField
  | id _ => some .id
  | size _ => some .size
  | args _ => some .args
  | name _ => some .name
  | codeBlock _ => some .codeBlock
  | namedValues _ => some .namedValues
  | other _ => none

/-- The lexemes that show the value of a field. -/
inductive ValueText : FieldDeclaration → List Lexeme → Prop where
  | id (id : UInt32) : ValueText (.id id) [.integer id.toNat]
  | size (size : UInt32) : ValueText (.size size) [.integer size.toNat]
  | args (descriptor : Bytes) : ValueText (.args descriptor) [.string descriptor]
  | name (name : Bytes) : ValueText (.name name) [.string name]
  | codeBlock (block : CodeBlock) : ValueText (.codeBlock block) [.identifier block.spelling]
  | namedValues {entries : List NamedValue} {shown : List Lexeme} :
      Listing NamedValueText entries shown →
      ValueText (.namedValues entries) (.mark .leftBrace :: (shown ++ [.mark .rightBrace]))
  | other {name : Bytes} {shown : List Lexeme} :
      SkippedValue Reader.maxDepth shown → ValueText (.other name) shown

/-- The name of a field; another field has none of the six names. -/
inductive FieldNamed : FieldDeclaration → Bytes → Prop where
  | known {declaration : FieldDeclaration} {field : FunctionField} :
      declaration.field? = some field → FieldNamed declaration field.spelling
  | other {name : Bytes} :
      (∀ field : FunctionField, field.spelling ≠ name) → FieldNamed (.other name) name

inductive FieldText : FieldDeclaration → List Lexeme → Prop where
  | named {declaration : FieldDeclaration} {name : Bytes} {value : List Lexeme} :
      FieldNamed declaration name →
      ValueText declaration value →
      FieldText declaration (.identifier name :: .mark .colon :: value)

/-- The instruction that fields declare: each of the six comes exactly once. -/
structure Declares (fields : List FieldDeclaration) (instruction : Instruction) : Prop where
  once : (fields.filterMap FieldDeclaration.field?).Perm FunctionField.all
  id : .id instruction.id ∈ fields
  size : .size instruction.size ∈ fields
  args : .args instruction.descriptor ∈ fields
  name : .name instruction.name ∈ fields
  codeBlock : .codeBlock instruction.block ∈ fields
  namedValues : ∃ entries, .namedValues entries ∈ fields ∧ instruction.values.Holds entries

/-- Fields in round brackets, behind the name of the structure or without it. -/
inductive StructText (name : StructName) (fields : List Lexeme) : List Lexeme → Prop where
  | unnamed : StructText name fields (.mark .leftParen :: (fields ++ [.mark .rightParen]))
  | named : StructText name fields
      (.identifier name.spelling :: .mark .leftParen :: (fields ++ [.mark .rightParen]))

inductive FunctionText (instruction : Instruction) : List Lexeme → Prop where
  | declared {fields : List FieldDeclaration} {body shown : List Lexeme} :
      Listing FieldText fields body →
      Declares fields instruction →
      StructText .function body shown →
      FunctionText instruction shown

/-- A field of a catalog: the function list, or another one. -/
inductive CatalogField where
  | functions (instructions : List Instruction)
  | other (name : Bytes)

def CatalogField.list? : CatalogField → Option (List Instruction)
  | functions instructions => some instructions
  | other _ => none

inductive CatalogFieldText : CatalogField → List Lexeme → Prop where
  | functions {instructions : List Instruction} {shown : List Lexeme} :
      Listing FunctionText instructions shown →
      CatalogFieldText (.functions instructions)
        (.identifier functionsField :: .mark .colon :: .mark .leftBracket ::
          (shown ++ [.mark .rightBracket]))
  | other {name : Bytes} {shown : List Lexeme} :
      name ≠ functionsField →
      SkippedValue Reader.maxDepth shown →
      CatalogFieldText (.other name) (.identifier name :: .mark .colon :: shown)

/-- The lexemes of a catalog with the given instructions: exactly one of its fields is
the function list. -/
inductive CatalogText (instructions : List Instruction) : List Lexeme → Prop where
  | declared {fields : List CatalogField} {body shown : List Lexeme} :
      Listing CatalogFieldText fields body →
      fields.filterMap CatalogField.list? = [instructions] →
      StructText .catalog body shown →
      CatalogText instructions shown

end OpcodeCatalog.Source.Grammar

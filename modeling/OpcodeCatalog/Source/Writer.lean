import OpcodeCatalog.Catalog
import OpcodeCatalog.Source.Refusal
import OpcodeCatalog.Source.Quoted

/-!
# Writing catalogs

A catalog is written in one of two styles.  The indented one has an item a line,
a comma behind each and opcodes in hexadecimal; the compact one has no blank and
no comma that could be left out.  Reading either gives the catalog back.
-/

namespace OpcodeCatalog.Source

inductive Style where
  | indented
  | compact
  deriving DecidableEq

namespace Style

def colon : Style → Bytes
  | indented => ascii ": "
  | compact => ascii ":"

def comma : Style → Bytes
  | indented => ascii ", "
  | compact => ascii ","

def indentation (depth : Nat) : Bytes :=
  List.replicate (4 * depth) ' '.toUInt8

/-- An item on a line of its own, with a comma behind it. -/
def itemLine (depth : Nat) (item : Bytes) : Bytes :=
  indentation depth ++ (item ++ [','.toUInt8, Ascii.newline])

/-- Items in brackets, where the opening bracket stands in a line at `depth`. -/
def bracketed (style : Style) (depth : Nat) (opening closing : Bytes) (items : List Bytes) :
    Bytes :=
  if items = [] then opening ++ closing
  else match style with
    | indented =>
      let lines := items.map (itemLine (depth + 1))
      ((opening ++ [Ascii.newline]) :: (lines ++ [indentation depth ++ closing])).flatten
    | compact => opening ++ ((ascii ",").intercalate items ++ closing)

def field (style : Style) (name value : Bytes) : Bytes :=
  name ++ (style.colon ++ value)

/-- A slot and what is bound in it. -/
def slotPair (style : Style) (slot : UInt32) (bound : Bytes) : Bytes :=
  ascii "(" ++ decimal slot.toNat ++ style.comma ++ bound ++ ascii ")"

def namedValue (style : Style) (entry : NamedValue) : Bytes :=
  style.slotPair entry.value.slot (decimalInt entry.value.value.toInt) ++ style.colon ++
    style.slotPair entry.name.slot (Quoted.write entry.name.name)

def namedValues (style : Style) (depth : Nat) (values : NamedValues) : Bytes :=
  style.bracketed depth [Mark.leftBrace.byte] [Mark.rightBrace.byte]
    (values.entries.map style.namedValue)

def opcode (style : Style) (id : UInt32) : Bytes :=
  match style with
  | indented => Instruction.opcodeText id
  | compact => decimal id.toNat

/-- The written value of a field of a function that stands at `depth`. -/
def functionFieldValue (style : Style) (depth : Nat) (instruction : Instruction) :
    FunctionField → Bytes
  | .id => style.opcode instruction.id
  | .size => decimal instruction.size.toNat
  | .args => Quoted.write instruction.descriptor
  | .name => Quoted.write instruction.name
  | .codeBlock => instruction.block.spelling
  | .namedValues => style.namedValues (depth + 1) instruction.values

def function (style : Style) (depth : Nat) (instruction : Instruction) : Bytes :=
  style.bracketed depth (StructName.function.spelling ++ ascii "(") (ascii ")")
    (FunctionField.all.map fun field =>
      style.field field.spelling (style.functionFieldValue depth instruction field))

def functions (style : Style) (depth : Nat) (instructions : List Instruction) : Bytes :=
  style.bracketed depth (ascii "[") (ascii "]") (instructions.map (style.function (depth + 1)))

end Style

/-- The written form of instructions; in the indented style it ends its last line. -/
def writeInstructions (style : Style) (instructions : List Instruction) : Bytes :=
  style.bracketed 0 (StructName.catalog.spelling ++ ascii "(") (ascii ")")
      [style.field functionsField (style.functions 1 instructions)] ++
    match style with
    | .indented => [Ascii.newline]
    | .compact => []

end OpcodeCatalog.Source

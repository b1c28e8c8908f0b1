import OpcodeCatalog.Instruction

/-!
# Catalogs

A catalog lists the instructions of one game in the order of their declaration.
Where an opcode or a name is declared more than once, the first one is found.
-/

namespace OpcodeCatalog

structure Catalog where
  game : Bytes
  instructions : List Instruction

namespace Catalog

def size (catalog : Catalog) : Nat :=
  catalog.instructions.length

def withId? (catalog : Catalog) (id : UInt32) : Option Instruction :=
  catalog.instructions.find? (·.id == id)

def withName? (catalog : Catalog) (name : Bytes) : Option Instruction :=
  catalog.instructions.find? (·.name == name)

/-- The instruction with an opcode, or the finding that there is none. -/
def findId (catalog : Catalog) (id : UInt32) : Except Finding Instruction :=
  match catalog.withId? id with
  | some instruction => .ok instruction
  | none => .error (.unknownInstruction (Instruction.opcodeText id))

/-- The instruction with exactly that name, or the finding that there is none. -/
def findName (catalog : Catalog) (name : Bytes) : Except Finding Instruction :=
  match catalog.withName? name with
  | some instruction => .ok instruction
  | none => .error (.unknownInstruction name)

end Catalog

end OpcodeCatalog

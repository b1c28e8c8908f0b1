import OpcodeCatalog.Diagnostic.Finding
import OpcodeCatalog.NamedValues
import OpcodeCatalog.Operand

/-!
# Instructions

An instruction is declared by its opcode, its size in bytes, a descriptor of its
operands, a name that may be missing, its part in the block structure of a
script, and the names of its operand values.
-/

namespace OpcodeCatalog

/-- The part of an instruction in the block structure of a script. -/
inductive CodeBlock where
  | begins
  | beginsJumpEntry
  | ends
  | noBlock
  deriving DecidableEq

namespace CodeBlock

def all : List CodeBlock :=
  [begins, beginsJumpEntry, ends, noBlock]

def spelling : CodeBlock → Bytes
  | begins => ascii "Begin"
  | beginsJumpEntry => ascii "BeginJumpEntry"
  | ends => ascii "End"
  | noBlock => ascii "NoBlock"

/-- The code block with a spelling; letter case matters. -/
def ofSpelling? (text : Bytes) : Option CodeBlock :=
  all.find? fun block => block.spelling == text

end CodeBlock

structure Instruction where
  id : UInt32
  /-- The declared size in bytes, the opcode included. -/
  size : UInt32
  descriptor : Bytes
  /-- The name, empty where it is not known. -/
  name : Bytes
  block : CodeBlock
  values : NamedValues

namespace Instruction

def operands (instruction : Instruction) : List Operand :=
  Operand.layout instruction.descriptor instruction.size

def opcodeText (id : UInt32) : Bytes :=
  hexadecimal id.toNat

def displayName (instruction : Instruction) : Bytes :=
  if instruction.name = [] then ascii "Unknown" ++ decimal instruction.id.toNat
  else instruction.name

def isJumpEntry (instruction : Instruction) : Bool :=
  instruction.block == .beginsJumpEntry

def beginsBlock (instruction : Instruction) : Bool :=
  instruction.block == .begins || instruction.block == .beginsJumpEntry

def endsBlock (instruction : Instruction) : Bool :=
  instruction.block == .ends

def valueOf (instruction : Instruction) (slot : UInt32) (name : Bytes) : Except Finding Int32 :=
  match instruction.values.valueOf? slot name with
  | some value => .ok value
  | none => .error (.noAssociatedValue name slot)

def nameOf? (instruction : Instruction) (slot : UInt32) (value : Int32) : Option Bytes :=
  instruction.values.nameOf? slot value

/-- Instructions are compared by what they declare, which fixes their operands. -/
instance : BEq Instruction where
  beq left right :=
    left.id == right.id && left.size == right.size && left.descriptor == right.descriptor &&
      left.name == right.name && left.block == right.block && left.values == right.values

end Instruction

end OpcodeCatalog

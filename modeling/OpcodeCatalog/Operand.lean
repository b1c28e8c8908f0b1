import OpcodeCatalog.Numeral

/-!
# Operand layouts

A descriptor lists the operands of an instruction as `i`, `16s` and `32s`.  It
was worked out by hand from compiled scripts, so whatever stands between those
spellings is passed over.  The layout ends in an unknown operand wherever the
declared size leaves room for more than the descriptor accounts for.
-/

namespace OpcodeCatalog

inductive Operand where
  | int
  | string16
  | string32
  | unknown (size : UInt32)
  deriving DecidableEq

namespace Operand

def size : Operand → UInt32
  | int => 4
  | string16 => 16
  | string32 => 32
  | unknown size => size

/-- The spelling of the operand's type, without a size. -/
def typeName : Operand → Bytes
  | int => ascii "i"
  | string16 => ascii "16s"
  | string32 => ascii "32s"
  | unknown _ => ascii "unknown"

def spelling (operand : Operand) : Bytes :=
  match operand with
  | unknown size => operand.typeName ++ ascii "(" ++ decimal size.toNat ++ ascii ")"
  | _ => operand.typeName

/-- The operands that a descriptor can name. -/
def typed : List Operand :=
  [string16, string32, int]

/-- The operand whose spelling stands at the front of a descriptor. -/
def atFront? (descriptor : Bytes) : Option Operand :=
  typed.find? fun operand => operand.spelling.isPrefixOf descriptor

/-- The operands that a descriptor names, in order. -/
def ofDescriptor : Bytes → List Operand
  | [] => []
  | byte :: rest =>
    match atFront? (byte :: rest) with
    | some operand => operand :: ofDescriptor (rest.drop (operand.spelling.length - 1))
    | none => ofDescriptor rest
termination_by descriptor => descriptor.length

/-- The number of bytes that operands take up together. -/
def totalSize : List Operand → Nat
  | [] => 0
  | operand :: rest => operand.size.toNat + totalSize rest

/-- Every instruction opens with its opcode. -/
def headerSize : Nat := 4

/-- The operands of an instruction of the declared size. -/
def layout (descriptor : Bytes) (declaredSize : UInt32) : List Operand :=
  let named := ofDescriptor descriptor
  let room := declaredSize.toNat - headerSize
  if totalSize named < room then
    named ++ [unknown (room - totalSize named).toUInt32]
  else named

end Operand

end OpcodeCatalog

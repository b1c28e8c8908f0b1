import Std.Data.ExtTreeSet
import OpcodeCatalog.Catalog

/-!
# Reviewing a catalog

A review remarks on what a catalog may hold but probably should not: opcodes and
names declared again, and named values of operands that are not there or that
lead from one operand to another.  It changes nothing.
-/

namespace OpcodeCatalog

namespace Instruction

/-- What is remarkable about the slots of one named value, where the instruction has
so many operands. -/
def reviewValue (instruction : Instruction) (count : Nat) (entry : NamedValue) : List Finding :=
  let outOfRange (slot : UInt32) : List Finding :=
    if slot.toNat < count then []
    else [.slotOutOfRange entry.name.name slot instruction.displayName count]
  let valueSlot := entry.value.slot
  let nameSlot := entry.name.slot
  if valueSlot = nameSlot then outOfRange valueSlot
  else outOfRange valueSlot ++ outOfRange nameSlot ++
    [.crossSlot entry.name.name valueSlot nameSlot instruction.displayName]

def reviewValues (instruction : Instruction) : List Finding :=
  instruction.values.entries.flatMap (instruction.reviewValue instruction.operands.length)

end Instruction

namespace Catalog

/-- The opcodes and the names of the instructions seen so far. -/
structure Seen where
  ids : Std.ExtTreeSet UInt32 := ∅
  names : Std.ExtTreeSet Bytes := ∅

def Seen.add (seen : Seen) (instruction : Instruction) : Seen :=
  ⟨seen.ids.insert instruction.id, seen.names.insert instruction.name⟩

/-- What is remarkable about an instruction that stands behind those seen. -/
def reviewInstruction (seen : Seen) (instruction : Instruction) : List Finding :=
  (if instruction.id ∈ seen.ids then [.duplicateOpcode instruction.id] else []) ++
    (if instruction.name ≠ [] ∧ instruction.name ∈ seen.names then
      [.duplicateName instruction.name] else []) ++
    instruction.reviewValues

/-- The findings on instructions that stand behind those seen. -/
def reviewBehind (seen : Seen) : List Instruction → List Finding
  | [] => []
  | instruction :: later =>
    reviewInstruction seen instruction ++ reviewBehind (seen.add instruction) later

def review (catalog : Catalog) : List Finding :=
  reviewBehind {} catalog.instructions

/-- Reports the findings of a review; the number tells how many there are. -/
def reportReview (catalog : Catalog) (log : Log) : Nat × Log :=
  let findings := catalog.review
  (findings.length, log.reportAll (findings.map fun finding => finding.diagnostic))

end Catalog

end OpcodeCatalog

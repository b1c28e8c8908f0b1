import OpcodeCatalog.Diagnostic
import OpcodeCatalog.Diagnostic.Template

/-!
# Findings

The problems that loading, looking up and reviewing a catalog can find.  Each
belongs to one of eight kinds, which fix its code, its severity and the template
of its message.
-/

namespace OpcodeCatalog

inductive FindingKind where
  | sourceNotFound
  | malformedSource
  | unknownInstruction
  | noAssociatedValue
  | duplicateOpcode
  | duplicateName
  | slotOutOfRange
  | crossSlot
  deriving DecidableEq

namespace FindingKind

/-- The identifier, which stays the same when the wording changes. -/
def identifier : FindingKind → Bytes
  | sourceNotFound => ascii "game-database-not-found"
  | malformedSource => ascii "deserialization"
  | unknownInstruction => ascii "unknown-instruction"
  | noAssociatedValue => ascii "no-associated-value"
  | duplicateOpcode => ascii "duplicate-opcode"
  | duplicateName => ascii "duplicate-name"
  | slotOutOfRange => ascii "named-value-slot-out-of-range"
  | crossSlot => ascii "cross-slot-named-value"

def code : FindingKind → Bytes
  | sourceNotFound => ascii "B1001"
  | malformedSource => ascii "B1002"
  | unknownInstruction => ascii "B1003"
  | noAssociatedValue => ascii "B1004"
  | duplicateOpcode => ascii "B2001"
  | duplicateName => ascii "B2002"
  | slotOutOfRange => ascii "B2003"
  | crossSlot => ascii "B2004"

/-- What prevents an answer is an error, what a review remarks on a warning. -/
def severity : FindingKind → Severity
  | sourceNotFound | malformedSource | unknownInstruction | noAssociatedValue => .error
  | duplicateOpcode | duplicateName | slotOutOfRange | crossSlot => .warning

private def saying (text : String) : Template.Piece :=
  .words (ascii text)

private def naming (key : String) : Template.Piece :=
  .blank (ascii key)

def pieces : FindingKind → List Template.Piece
  | sourceNotFound => [saying "game database not found: ", naming "path"]
  | malformedSource => [saying "malformed game database: ", naming "detail"]
  | unknownInstruction => [saying "unknown instruction: ", naming "key"]
  | noAssociatedValue =>
    [saying "no value associated with name '", naming "name", saying "' for argument ", naming "slot"]
  | duplicateOpcode =>
    [saying "opcode ", naming "id", saying " declared more than once; first declaration wins"]
  | duplicateName =>
    [saying "instruction name '", naming "name", saying "' declared more than once"]
  | slotOutOfRange =>
    [saying "named value '", naming "name", saying "' references argument ", naming "slot",
      saying " but '", naming "instr", saying "' has ", naming "count", saying " arguments"]
  | crossSlot =>
    [saying "named value '", naming "name", saying "' of '", naming "instr",
      saying "' maps argument ", naming "from", saying " to argument ", naming "to"]

def template (kind : FindingKind) : Bytes :=
  Template.ofPieces kind.pieces

def message (kind : FindingKind) (replacements : List (Bytes × Bytes)) : Bytes :=
  Template.fill replacements kind.template

def diagnostic (kind : FindingKind) (replacements : List (Bytes × Bytes))
    (location : Location := {}) : Diagnostic :=
  { severity := kind.severity
    message := kind.message replacements
    location
    code := kind.code }

/-- Whether a diagnostic has the code of the kind. -/
def carriedBy (kind : FindingKind) (diagnostic : Diagnostic) : Bool :=
  diagnostic.code == kind.code

end FindingKind

inductive Finding where
  | sourceNotFound (path : Bytes)
  | malformedSource (detail : Bytes)
  | unknownInstruction (key : Bytes)
  | noAssociatedValue (name : Bytes) (slot : UInt32)
  | duplicateOpcode (id : UInt32)
  | duplicateName (name : Bytes)
  | slotOutOfRange (name : Bytes) (slot : UInt32) (instruction : Bytes) (operandCount : Nat)
  | crossSlot (name : Bytes) (valueSlot nameSlot : UInt32) (instruction : Bytes)
  deriving DecidableEq

namespace Finding

def kind : Finding → FindingKind
  | sourceNotFound _ => .sourceNotFound
  | malformedSource _ => .malformedSource
  | unknownInstruction _ => .unknownInstruction
  | noAssociatedValue _ _ => .noAssociatedValue
  | duplicateOpcode _ => .duplicateOpcode
  | duplicateName _ => .duplicateName
  | slotOutOfRange _ _ _ _ => .slotOutOfRange
  | crossSlot _ _ _ _ => .crossSlot

/-- What stands for the keys of the kind's template. -/
def replacements : Finding → List (Bytes × Bytes)
  | sourceNotFound path => [(ascii "path", path)]
  | malformedSource detail => [(ascii "detail", detail)]
  | unknownInstruction key => [(ascii "key", key)]
  | noAssociatedValue name slot =>
    [(ascii "name", name), (ascii "slot", decimal slot.toNat)]
  | duplicateOpcode id => [(ascii "id", hexadecimal id.toNat)]
  | duplicateName name => [(ascii "name", name)]
  | slotOutOfRange name slot instruction operandCount =>
    [(ascii "name", name), (ascii "slot", decimal slot.toNat), (ascii "instr", instruction),
      (ascii "count", decimal operandCount)]
  | crossSlot name valueSlot nameSlot instruction =>
    [(ascii "name", name), (ascii "from", decimal valueSlot.toNat),
      (ascii "to", decimal nameSlot.toNat), (ascii "instr", instruction)]

def diagnostic (finding : Finding) (location : Location := {}) : Diagnostic :=
  finding.kind.diagnostic finding.replacements location

end Finding

end OpcodeCatalog

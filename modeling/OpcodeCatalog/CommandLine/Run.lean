import OpcodeCatalog.Catalog.Load
import OpcodeCatalog.CommandLine.Arguments
import OpcodeCatalog.CommandLine.Transcript
import OpcodeCatalog.Source.Writer

/-!
# Runs

A run loads one catalog and lists it, dumps it, or answers queries on one of its
instructions.  Its status is 2 if the arguments make no sense, 1 if something
asked for was not found, and 0 otherwise.
-/

namespace OpcodeCatalog.CommandLine

structure Outcome where
  status : UInt32
  transcript : Transcript
  registry : SourceRegistry

/-- An instruction in one line. -/
def describe (instruction : Instruction) : Bytes :=
  Instruction.opcodeText instruction.id ++ ascii " " ++ instruction.displayName ++
    ascii " size=" ++ decimal instruction.size.toNat ++
    ascii " block=" ++ instruction.block.spelling ++
    ascii " args=[" ++ (ascii ", ").intercalate (instruction.operands.map Operand.spelling) ++
    ascii "]\n"

/-- A named value in one line; the slot of its name is told where it is another one. -/
def describeValue (entry : NamedValue) : Bytes :=
  ascii "  arg " ++ decimal entry.value.slot.toNat ++ ascii ": " ++
    decimalInt entry.value.value.toInt ++ ascii " = " ++ entry.name.name ++
    (if entry.name.slot = entry.value.slot then []
      else ascii " (arg " ++ decimal entry.name.slot.toNat ++ ascii ")") ++
    [Ascii.newline]

/-- All instructions and their number. -/
def listing (catalog : Catalog) : Bytes :=
  catalog.instructions.flatMap describe ++ decimal catalog.size ++ ascii " records\n"

/-- The answer to a query for a value, or the finding that nothing has the name. -/
def answerValue (instruction : Instruction) (query : SlotQuery) : Except Finding Bytes :=
  (instruction.valueOf query.slot query.text).map fun value =>
    ascii "value " ++ decimal query.slot.toNat ++ ascii ":" ++ query.text ++ ascii " = " ++
      decimalInt value.toInt ++ [Ascii.newline]

def answerName (instruction : Instruction) (query : NameQuery) : Bytes :=
  ascii "name " ++ decimal query.slot.toNat ++ ascii ":" ++ decimalInt query.value.toInt ++
    ascii " = " ++ (instruction.nameOf? query.slot query.value).getD (ascii "<none>") ++
    [Ascii.newline]

/-- What an answer or a finding writes. -/
def write (registry : SourceRegistry) : Except Finding Bytes → Channel × Bytes
  | .ok answer => (.output, answer)
  | .error finding => (.errors, finding.diagnostic.render registry)

/-- The answers to the queries on an instruction, or all its named values if there
are none.  A query that fails keeps no other one from being answered. -/
def answer (registry : SourceRegistry) (arguments : Arguments) (instruction : Instruction) :
    UInt32 × Transcript :=
  if arguments.queries then
    let values := arguments.valueQueries.map (answerValue instruction)
    let names := arguments.nameQueries.map (answerName instruction)
    (if values.all (·.isOk) then 0 else 1,
      values.map (write registry) ++ names.map fun name => (.output, name))
  else
    (0, instruction.values.entries.map fun entry => (.output, describeValue entry))

/-- The instruction that the arguments select; an opcode is as good as a name. -/
def select? (arguments : Arguments) (catalog : Catalog) : Option (Except Finding Instruction) :=
  match arguments.id, arguments.name with
  | some id, _ => some (catalog.findId id)
  | none, some name => some (catalog.findName name)
  | none, none => none

/-- What is done with a catalog once it is loaded and reviewed. -/
def inspect (registry : SourceRegistry) (arguments : Arguments) (catalog : Catalog) :
    UInt32 × Transcript :=
  if arguments.dump then
    (0, [(.output, Source.writeInstructions .indented catalog.instructions)])
  else match select? arguments catalog with
    | none => (0, [(.output, listing catalog)])
    | some (.error finding) => (1, [write registry (.error finding)])
    | some (.ok instruction) =>
      let (status, answers) := answer registry arguments instruction
      (status, (.output, describe instruction) :: answers)

def traced (settings : Settings) (lines : List TraceLine) : Transcript :=
  [(.trace, TraceLine.renderAll settings.trace lines)]

/-- The findings of a review and, in the trace, their number. -/
def review (registry : SourceRegistry) (settings : Settings) (catalog : Catalog) : Transcript :=
  let (count, log) := catalog.reportReview {}
  (.errors, log.render registry) ::
    traced settings [⟨ascii "verify", decimal count ++ ascii " warnings"⟩]

/-- The part of a run that needs a catalog.  The review is reported by the run
itself, so that loading does not have to trace it. -/
def runArguments (contents? : Bytes → Option Bytes) (registry : SourceRegistry)
    (arguments : Arguments) : Outcome :=
  let settings := arguments.settings
  let loading := Catalog.load contents? registry { settings with verify := false } arguments.game
  let registry := loading.registry.getD registry
  let loaded := traced settings loading.trace
  match loading.result with
  | .error diagnostic => ⟨1, loaded ++ [(.errors, diagnostic.render registry)], registry⟩
  | .ok catalog =>
    let reviewed := if settings.verify then review registry settings catalog else []
    let (status, answers) := inspect registry arguments catalog
    ⟨status, loaded ++ reviewed ++ answers, registry⟩

/-- A run of the words of a command line. -/
def run (contents? : Bytes → Option Bytes) (environment : Environment)
    (registry : SourceRegistry) (words : List Bytes) : Outcome :=
  match Arguments.ofWords (Settings.inEnvironment {} environment) words with
  | .error fault => ⟨2, [(.errors, fault.render)], registry⟩
  | .ok arguments =>
    if arguments.help then ⟨0, [(.output, usage)], registry⟩
    else runArguments contents? registry arguments

end OpcodeCatalog.CommandLine

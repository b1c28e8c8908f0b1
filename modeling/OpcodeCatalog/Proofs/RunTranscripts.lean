import OpcodeCatalog.CommandLine.Run
import OpcodeCatalog.Proofs.AcceptedArguments
import OpcodeCatalog.Proofs.LoadRuns

/-!
# What runs report

A run with accepted arguments takes one of six courses, told by what its catalog is
and by what the arguments select in it.  The course decides what fails and what is
written as output.  The status and the errors follow from the failures alone: each
failure is printed once, and a run without any ends well.
-/

namespace OpcodeCatalog.CommandLine

/-! ## Transcripts -/

namespace Transcript

variable {channel other : Channel} {text : Bytes} {rest : Transcript}

end Transcript

namespace Outcome

def output (outcome : Outcome) : Bytes :=
  outcome.transcript.textOn .output

def errors (outcome : Outcome) : Bytes :=
  outcome.transcript.textOn .errors

/-- Diagnostics as a run prints them, one behind the other. -/
def printed (outcome : Outcome) (diagnostics : List Diagnostic) : Bytes :=
  diagnostics.flatMap (·.render outcome.registry)

end Outcome

/-- The answer to a query for the value of a name. -/
def valueText (query : SlotQuery) (value : Int32) : Bytes :=
  ascii "value " ++ decimal query.slot.toNat ++ ascii ":" ++ query.text ++ ascii " = " ++
    decimalInt value.toInt ++ [Ascii.newline]

/-- The value that a query asks for, if it is bound. -/
def bound? (instruction : Instruction) (query : SlotQuery) : Option Int32 :=
  instruction.values.valueOf? query.slot query.text

/-- The failures of all queries for values that are not bound, in order. -/
def unbound (instruction : Instruction) (queries : List SlotQuery) : List Diagnostic :=
  (queries.filter fun query => (bound? instruction query).isNone).map fun query =>
    (Finding.noAssociatedValue query.text query.slot).diagnostic

section Answers

variable (registry : SourceRegistry) (instruction : Instruction) (queries : List SlotQuery)

end Answers

/-! ## Courses -/

/-- Looking up what the arguments select, by an opcode or by a name, comes to `found`; the key
is the opcode or the name as failures tell it. -/
inductive LooksUp (arguments : Arguments) (catalog : Catalog) :
    Bytes → Option Instruction → Prop where
  | id {id : UInt32} (selected : arguments.id = some id) :
      LooksUp arguments catalog (Instruction.opcodeText id) (catalog.withId? id)
  | name {name : Bytes} (selected : arguments.name = some name) :
      LooksUp arguments catalog name (catalog.withName? name)

/-- What can fail in a run: its load, its lookup, or one of its queries for values. -/
inductive Fails (arguments : Arguments) : Except Diagnostic Catalog → Prop where
  | load (diagnostic : Diagnostic) : Fails arguments (.error diagnostic)
  | lookup {catalog : Catalog} {key : Bytes} (lookup : LooksUp arguments catalog key none) :
      Fails arguments (.ok catalog)
  | query {catalog : Catalog} {key : Bytes} {instruction : Instruction} {query : SlotQuery}
      (lookup : LooksUp arguments catalog key (some instruction))
      (asked : query ∈ arguments.valueQueries) (unbound : bound? instruction query = none) :
      Fails arguments (.ok catalog)

variable {arguments : Arguments} {catalog : Catalog} {key otherKey : Bytes}
  {instruction : Instruction} {found other : Option Instruction}
  {loaded : Except Diagnostic Catalog} {failures : List Diagnostic} {output : Bytes}

namespace LooksUp

theorem selects (lookup : LooksUp arguments catalog key found) : arguments.selects = true := by
  cases lookup with
  | id selected => rw [Arguments.selects, selected, Option.isSome_some, Bool.true_or]
  | name selected => rw [Arguments.selects, selected, Option.isSome_some, Bool.or_true]

/-- At most one thing is looked up. -/
theorem unique (fits : arguments.Fits) (lookup : LooksUp arguments catalog key found)
    (again : LooksUp arguments catalog otherKey other) : found = other := by
  cases lookup with
  | id selected =>
      cases again with
      | id same =>
          cases selected.symm.trans same
          rfl
      | name named =>
          rcases fits.oneSelection with none | none
          · cases none.symm.trans selected
          · cases none.symm.trans named
  | name selected =>
      cases again with
      | id numbered =>
          rcases fits.oneSelection with none | none
          · cases none.symm.trans numbered
          · cases none.symm.trans selected
      | name same =>
          cases selected.symm.trans same
          rfl

end LooksUp

/-- What a run prints of a review. -/
def remarks (arguments : Arguments) : Except Diagnostic Catalog → List Diagnostic
  | .ok catalog =>
    if arguments.settings.verify then catalog.review.map fun finding => finding.diagnostic else []
  | .error _ => []

/-- What a run says of the review of its catalog, if it was asked for. -/
def reviewed (arguments : Arguments) (registry : SourceRegistry) (catalog : Catalog) : Transcript :=
  if arguments.settings.verify then review registry arguments.settings catalog else []

section Words

variable {environment : Environment} {words : List Bytes}

theorem run_of_fault {fault : UsageFault}
    (faulty : Arguments.ofWords (Settings.inEnvironment {} environment) words = .error fault)
    (contents? : Bytes → Option Bytes) (registry : SourceRegistry) :
    run contents? environment registry words = ⟨2, [(.errors, fault.render)], registry⟩ := by
  rw [run, faulty]

end Words

-- One query is in vain, and the two behind it are answered.
example :
    let source := ascii ("(functions:[(id:4,size:8,args:\"i\",name:\"f\",codeBlock:End," ++
      "namedValues:\x7b(0,-1):(0,\"off\")\x7d)])")
    let words := ["--id", "4", "--value", "0:on", "--value", "0:off", "--name-of", "0:7", "game"]
    let outcome := run (fun _ => some source) {} {} (words.map ascii)
    outcome.status = 1 ∧
      outcome.output = ascii
        "0x4 f size=8 block=End args=[i]\nvalue 0:off = -1\nname 0:7 = <none>\n" ∧
      outcome.errors = ascii
        "error[B1004]: no value associated with name 'on' for argument 0\n" := by
  decide +kernel

end OpcodeCatalog.CommandLine

import OpcodeCatalog.CommandLine.Query
import OpcodeCatalog.Settings

/-!
# Arguments

The command line names a game and, by options, what to do with its catalog.
Arguments are read from left to right and checked together once all are read;
asking for help needs no check.
-/

namespace OpcodeCatalog.CommandLine

structure Arguments where
  settings : Settings
  game : Bytes := []
  dump : Bool := false
  help : Bool := false
  id : Option UInt32 := none
  name : Option Bytes := none
  valueQueries : List SlotQuery := []
  nameQueries : List NameQuery := []
  deriving DecidableEq

inductive UsageFault where
  | missingOperand (option : Bytes)
  | invalidOpcode (operand : Bytes)
  | malformedQuery (operand : Bytes)
  | invalidValue (text : Bytes)
  | unknownOption (word : Bytes)
  | secondGame
  | noGame
  | idAndName
  | queryWithoutSelection
  | dumpWithSelection
  deriving DecidableEq

def UsageFault.message : UsageFault → Bytes
  | missingOperand option => ascii "missing operand for " ++ option
  | invalidOpcode operand => ascii "invalid opcode '" ++ operand ++ ascii "'"
  | malformedQuery operand => ascii "expected SLOT:TEXT, got '" ++ operand ++ ascii "'"
  | invalidValue text => ascii "invalid value '" ++ text ++ ascii "'"
  | unknownOption word => ascii "unknown option " ++ word
  | secondGame => ascii "more than one game given"
  | noGame => ascii "no game given"
  | idAndName => ascii "--id and --name are mutually exclusive"
  | queryWithoutSelection => ascii "--value and --name-of require --id or --name"
  | dumpWithSelection => ascii "--dump cannot be combined with --id or --name"

def usage : Bytes :=
  ascii "Usage: bbscript-db [--db-dir DIR] [--verify] [--trace] [--dump]\n" ++
    ascii "                   [--id ID | --name NAME [--value SLOT:NAME] " ++
    ascii "[--name-of SLOT:VALUE]] GAME\n"

/-- The fault in one line, and how the arguments should have been. -/
def UsageFault.render (fault : UsageFault) : Bytes :=
  ascii "bbscript-db: " ++ fault.message ++ [Ascii.newline] ++ usage

/-- An option that stands alone. -/
inductive Flag where
  | help
  | verify
  | trace
  | dump
  deriving DecidableEq

/-- An option that takes the next argument for its operand. -/
inductive Parameter where
  | directory
  | id
  | name
  | value
  | nameOf
  deriving DecidableEq

inductive Word where
  | flag (flag : Flag)
  | parameter (parameter : Parameter)
  | unknownOption
  | game
  deriving DecidableEq

/-- What an argument is when it is not taken for an operand. -/
def Word.ofArgument (argument : Bytes) : Word :=
  if argument = ascii "-h" ∨ argument = ascii "--help" then flag .help
  else if argument = ascii "--verify" then flag .verify
  else if argument = ascii "--trace" then flag .trace
  else if argument = ascii "--dump" then flag .dump
  else if argument = ascii "--db-dir" then parameter .directory
  else if argument = ascii "--id" then parameter .id
  else if argument = ascii "--name" then parameter .name
  else if argument = ascii "--value" then parameter .value
  else if argument = ascii "--name-of" then parameter .nameOf
  else if argument.head? = some '-'.toUInt8 then unknownOption
  else game

namespace Arguments

def setFlag (arguments : Arguments) : Flag → Arguments
  | .help => { arguments with help := true }
  | .verify => { arguments with settings.verify := true }
  | .trace => { arguments with settings.trace := true }
  | .dump => { arguments with dump := true }

def slotQuery (operand : Bytes) : Except UsageFault SlotQuery :=
  match SlotQuery.ofOperand? operand with
  | some query => .ok query
  | none => .error (.malformedQuery operand)

def set (arguments : Arguments) (parameter : Parameter) (operand : Bytes) :
    Except UsageFault Arguments :=
  match parameter with
  | .directory => .ok { arguments with settings.directory := operand }
  | .id =>
    match unsigned32? operand with
    | some id => .ok { arguments with id := some id }
    | none => .error (.invalidOpcode operand)
  | .name => .ok { arguments with name := some operand }
  | .value => do
    let query ← slotQuery operand
    return { arguments with valueQueries := arguments.valueQueries ++ [query] }
  | .nameOf => do
    let query ← slotQuery operand
    match signed32? query.text with
    | some value =>
      return { arguments with nameQueries := arguments.nameQueries ++ [{ query with value }] }
    | none => throw (.invalidValue query.text)

def setGame (arguments : Arguments) (game : Bytes) : Except UsageFault Arguments :=
  if arguments.game = [] then .ok { arguments with game } else .error .secondGame

/-- Reads words behind the arguments read so far. -/
def read (arguments : Arguments) : List Bytes → Except UsageFault Arguments
  | [] => .ok arguments
  | word :: rest =>
    match Word.ofArgument word with
    | .flag flag => read (arguments.setFlag flag) rest
    | .parameter parameter =>
      match rest with
      | [] => .error (.missingOperand word)
      | operand :: rest => do
        let arguments ← arguments.set parameter operand
        read arguments rest
    | .unknownOption => .error (.unknownOption word)
    | .game => do
      let arguments ← arguments.setGame word
      read arguments rest

def selects (arguments : Arguments) : Bool :=
  arguments.id.isSome || arguments.name.isSome

def queries (arguments : Arguments) : Bool :=
  !arguments.valueQueries.isEmpty || !arguments.nameQueries.isEmpty

/-- What cannot be asked for together, or is missing. -/
def check (arguments : Arguments) : Except UsageFault Arguments :=
  if arguments.help then .ok arguments
  else if arguments.game = [] then .error .noGame
  else if arguments.id.isSome && arguments.name.isSome then .error .idAndName
  else if !arguments.selects && arguments.queries then .error .queryWithoutSelection
  else if arguments.dump && arguments.selects then .error .dumpWithSelection
  else .ok arguments

/-- The arguments that words give on top of settings. -/
def ofWords (settings : Settings) (words : List Bytes) : Except UsageFault Arguments := do
  let arguments ← read { settings } words
  arguments.check

end Arguments

end OpcodeCatalog.CommandLine

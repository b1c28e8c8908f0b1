import OpcodeCatalog.Path

/-!
# Settings

Where catalogs are looked for, and whether loading one is traced and reviewed.
Two environment variables may change the defaults.
-/

namespace OpcodeCatalog

structure Settings where
  directory : Bytes := ascii "static_db"
  /-- With its dot. -/
  extension : Bytes := ascii ".ron"
  trace : Bool := false
  verify : Bool := false
  deriving DecidableEq

/-- The values of the environment variables, where they are set. -/
structure Environment where
  directory : Option Bytes := none
  trace : Option Bytes := none

namespace Environment

def directoryVariable : String := "BBSCRIPT_DB_DIR"

def traceVariable : String := "BBSCRIPT_TRACE"

/-- Tracing is asked for by any value but the empty one and `0`. -/
def asksForTrace (environment : Environment) : Bool :=
  match environment.trace with
  | some value => value ≠ [] && value ≠ ascii "0"
  | none => false

end Environment

namespace Settings

/-- The environment replaces the directory by one that is not empty, and can only
turn tracing on. -/
def inEnvironment (settings : Settings) (environment : Environment) : Settings :=
  { settings with
    directory := (environment.directory.filter (· ≠ [])).getD settings.directory
    trace := settings.trace || environment.asksForTrace }

/-- Where the catalog of a game is looked for; the path is not in normal form. -/
def catalogPath (settings : Settings) (game : Bytes) : Bytes :=
  Path.join settings.directory (game ++ settings.extension)

end Settings

end OpcodeCatalog

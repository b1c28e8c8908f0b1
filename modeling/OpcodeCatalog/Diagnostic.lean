import OpcodeCatalog.Numeral
import OpcodeCatalog.SourceRegistry

/-!
# Diagnostics

A diagnostic is one reported problem with a severity, a stable code and, where
it is known, a location.  A log keeps diagnostics in the order of their report.
-/

namespace OpcodeCatalog

inductive Severity where
  | note
  | warning
  | error
  deriving DecidableEq

def Severity.name : Severity → Bytes
  | note => ascii "note"
  | warning => ascii "warning"
  | error => ascii "error"

/-- A place in a source.  Zero stands for what is not known: the file of a text
that was not registered, or the line and column of a problem without a place. -/
structure Location where
  file : UInt32 := 0
  line : UInt32 := 0
  column : UInt32 := 0
  deriving DecidableEq

namespace Location

def isValid (location : Location) : Bool :=
  location.file != 0

def hasLine (location : Location) : Bool :=
  location.line != 0

def hasColumn (location : Location) : Bool :=
  location.column != 0

/-- The known line and column; a column without a line says nothing. -/
def lineAndColumn (location : Location) : List Bytes :=
  if location.hasLine then
    decimal location.line.toNat ::
      if location.hasColumn then [decimal location.column.toNat] else []
  else []

/-- The path of the location's file, where a registry knows it. -/
def knownPath (location : Location) (registry : Option SourceRegistry) : List Bytes :=
  match registry with
  | some registry =>
    let path := if location.isValid then registry.path location.file else []
    if path = [] then [] else [path]
  | none => []

end Location

structure Diagnostic where
  severity : Severity
  message : Bytes
  location : Location := {}
  code : Bytes := []
  deriving DecidableEq

namespace Diagnostic

def ofError (location : Location) (message : Bytes) (code : Bytes := []) : Diagnostic :=
  { severity := .error, message, location, code }

/-- What stands before the severity: all that is known of the place. -/
def placeText (diagnostic : Diagnostic) (registry : Option SourceRegistry) : Bytes :=
  match diagnostic.location.knownPath registry ++ diagnostic.location.lineAndColumn with
  | [] => []
  | known => (ascii ":").intercalate known ++ ascii ": "

def codeText (diagnostic : Diagnostic) : Bytes :=
  if diagnostic.code = [] then [] else ascii "[" ++ diagnostic.code ++ ascii "]"

/-- The printed form, which ends its line. -/
def render (diagnostic : Diagnostic) (registry : Option SourceRegistry) : Bytes :=
  diagnostic.placeText registry ++ diagnostic.severity.name ++ diagnostic.codeText ++
    ascii ": " ++ diagnostic.message ++ [Ascii.newline]

end Diagnostic

structure Log where
  /-- In the order of report. -/
  entries : List Diagnostic := []

namespace Log

def reportAll (log : Log) (diagnostics : List Diagnostic) : Log :=
  ⟨log.entries ++ diagnostics⟩

def report (log : Log) (diagnostic : Diagnostic) : Log :=
  log.reportAll [diagnostic]

def count (log : Log) (severity : Severity) : Nat :=
  log.entries.countP (·.severity == severity)

def errorCount (log : Log) : Nat :=
  log.count .error

def warningCount (log : Log) : Nat :=
  log.count .warning

def render (log : Log) (registry : Option SourceRegistry) : Bytes :=
  log.entries.flatMap (·.render registry)

end Log

end OpcodeCatalog

import OpcodeCatalog.CommandLine.Run

/-!
# The command

Reads the words and the environment, the one file that the run may ask for, and
writes out what the run says.
-/

namespace OpcodeCatalog.CommandLine

def bytesOf (text : String) : Bytes :=
  text.toUTF8.toList

/-- The path of the file that a run of the words asks for, if it asks for one. -/
def neededPath? (environment : Environment) (words : List Bytes) : Option Bytes :=
  match Arguments.ofWords (Settings.inEnvironment {} environment) words with
  | .ok arguments =>
    if arguments.help then none else some (arguments.settings.catalogPath arguments.game)
  | .error _ => none

def readEnvironment : IO Environment := do
  let directory ← IO.getEnv Environment.directoryVariable
  let trace ← IO.getEnv Environment.traceVariable
  return { directory := directory.map bytesOf, trace := trace.map bytesOf }

/-- The contents of a regular file; nothing if it is not there or cannot be read. -/
def readFile? (path : Bytes) : IO (Option Bytes) := do
  let some name := String.fromUTF8? ⟨path.toArray⟩ | return none
  try
    let contents ← IO.FS.readBinFile name
    return some contents.toList
  catch _ => return none

def writeTranscript (transcript : Transcript) : IO Unit := do
  for (channel, text) in transcript do
    let stream ← match channel with
      | .output => IO.getStdout
      | .errors => IO.getStderr
      | .trace => IO.getStderr
    stream.write ⟨text.toArray⟩
    stream.flush

end OpcodeCatalog.CommandLine

open OpcodeCatalog OpcodeCatalog.CommandLine in
def main (words : List String) : IO UInt32 := do
  let words := words.map bytesOf
  let environment ← readEnvironment
  let path := neededPath? environment words
  let contents ← match path with
    | some path => readFile? path
    | none => pure none
  let outcome := run (fun asked => if some asked = path then contents else none)
    environment {} words
  writeTranscript outcome.transcript
  return outcome.status

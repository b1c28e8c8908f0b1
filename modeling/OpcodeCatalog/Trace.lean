import OpcodeCatalog.Bytes

/-!
# Trace lines

A trace tells in lines of text which phase of a run does what.
-/

namespace OpcodeCatalog

structure TraceLine where
  phase : Bytes
  message : Bytes
  deriving DecidableEq

namespace TraceLine

def render (line : TraceLine) : Bytes :=
  ascii "[bbscript] " ++ line.phase ++ ascii ": " ++ line.message ++ [Ascii.newline]

/-- The text of a trace, which is empty unless tracing is on. -/
def renderAll (enabled : Bool) (lines : List TraceLine) : Bytes :=
  if enabled then lines.flatMap render else []

end TraceLine

end OpcodeCatalog

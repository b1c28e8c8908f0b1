import OpcodeCatalog.Bytes

/-!
# Transcripts

A transcript is what a run writes, in order, each text to one of three channels.
-/

namespace OpcodeCatalog.CommandLine

inductive Channel where
  | output
  | errors
  | trace
  deriving DecidableEq

abbrev Transcript := List (Channel × Bytes)

namespace Transcript

/-- All that is written to a channel. -/
def textOn (transcript : Transcript) (channel : Channel) : Bytes :=
  (transcript.filter (·.1 == channel)).flatMap Prod.snd

end Transcript

end OpcodeCatalog.CommandLine

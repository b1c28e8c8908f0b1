import OpcodeCatalog.Source.Scanner

/-!
# Token streams

A token stream is all that a reader of catalogs sees of a source: the tokens up
to the end of the source or to the first fault in it, and that ending.
-/

namespace OpcodeCatalog.Source

structure TokenStream where
  tokens : List Token
  ending : Ending
  deriving DecidableEq

/-- The tokens that a scanner still hands out, and the scanner as it is then left. -/
def Scanner.run (scanner : Scanner) : TokenStream × Scanner :=
  match _read : scanner.next with
  | (.ending ending, after) => (⟨[], ending⟩, after)
  | (.token token, after) =>
    let (stream, last) := after.run
    (⟨token :: stream.tokens, stream.ending⟩, last)
termination_by scanner.rest.length
decreasing_by exact Scanner.length_rest_next_token (by assumption)

namespace TokenStream

def ofSource (file : UInt32) (source : Bytes) : TokenStream :=
  (Scanner.ofSource file source).run.1

/-- The sort of thing that stands at the front. -/
def kind (stream : TokenStream) : TokenKind :=
  match stream.tokens with
  | token :: _ => token.lexeme.kind
  | [] => if stream.ending.fault.isSome then .error else .endOfInput

def location (stream : TokenStream) : Location :=
  match stream.tokens with
  | token :: _ => token.location
  | [] => stream.ending.location

end TokenStream

end OpcodeCatalog.Source

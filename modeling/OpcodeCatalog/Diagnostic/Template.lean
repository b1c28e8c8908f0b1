import OpcodeCatalog.Bytes

/-!
# Message templates

A template is a text with keys in braces.  Filling it puts the replacement of
each key in its place and looks at no byte twice, so a replacement that itself
holds braces comes out as it is.
-/

namespace OpcodeCatalog.Template

def openBrace : UInt8 := '{'.toUInt8

def closeBrace : UInt8 := '}'.toUInt8

inductive Piece where
  | words (text : Bytes)
  | blank (key : Bytes)

/-- How a piece is written in a template. -/
def Piece.spelling : Piece → Bytes
  | words text => text
  | blank key => [openBrace] ++ key ++ [closeBrace]

def ofPieces (pieces : List Piece) : Bytes :=
  pieces.flatMap Piece.spelling

/-- Replaces each key in braces by the first replacement given for it.  A key
without replacement stays as it is, and so does a brace that nothing closes. -/
def fill (replacements : List (Bytes × Bytes)) : Bytes → Bytes
  | [] => []
  | byte :: rest =>
    if byte = openBrace then
      let key := rest.takeWhile (· ≠ closeBrace)
      if key.length < rest.length then
        (replacements.lookup key).getD ([openBrace] ++ key ++ [closeBrace]) ++
          fill replacements (rest.drop (key.length + 1))
      else byte :: rest
    else byte :: fill replacements rest
termination_by template => template.length
decreasing_by
  · rw [List.length_drop, List.length_cons]
    omega
  · exact Nat.lt_succ_self rest.length

end OpcodeCatalog.Template

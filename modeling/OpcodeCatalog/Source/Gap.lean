import OpcodeCatalog.Bytes

/-!
# Gaps between lexemes

Blanks and comments separate lexemes and mean nothing.  A line comment leaves
the newline that ends it; a block comment holds further block comments, whose
opening and closing pairs are matched from left to right.
-/

namespace OpcodeCatalog.Source.Gap

/-- The number of bytes before the end of the line. -/
def restOfLine (text : Bytes) : Nat :=
  (text.takeWhile (· ≠ Ascii.newline)).length

/-- The number of bytes up to the end of the comment inside `depth` open ones,
the closing pairs included; none if one of them is never closed. -/
def blockComment (depth : Nat) (text : Bytes) : Option Nat :=
  if depth = 0 then some 0
  else match text with
    | [] => none
    | [_] => none
    | first :: second :: rest =>
      if first = Ascii.slash ∧ second = Ascii.star then
        (blockComment (depth + 1) rest).map (2 + ·)
      else if first = Ascii.star ∧ second = Ascii.slash then
        (blockComment (depth - 1) rest).map (2 + ·)
      else (blockComment depth (second :: rest)).map (1 + ·)

/-- The number of bytes before the next lexeme; none if a comment is never closed. -/
def width (text : Bytes) : Option Nat :=
  match text with
  | [] => some 0
  | first :: rest =>
    if Ascii.isBlank first then (width rest).map (1 + ·)
    else if first = Ascii.slash then
      match rest with
      | [] => some 0
      | second :: inside =>
        if second = Ascii.slash then
          let comment := restOfLine inside
          (width (inside.drop comment)).map (2 + comment + ·)
        else if second = Ascii.star then
          match blockComment 1 inside with
          | some comment => (width (inside.drop comment)).map (2 + comment + ·)
          | none => none
        else some 0
    else some 0
termination_by text.length

end OpcodeCatalog.Source.Gap

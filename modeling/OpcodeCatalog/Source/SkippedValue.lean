import OpcodeCatalog.Source.Reader

/-!
# Skipped values

A field that no structure knows may hold any value: an integer, a string, a word,
or a bracketed list of values and pairs of values, with a word allowed in front
of round brackets.  Values nest at most 128 deep.
-/

namespace OpcodeCatalog.Source

/-- The mark that closes what a mark opens. -/
def Mark.closing? : Mark → Option Mark
  | leftParen => some rightParen
  | leftBracket => some rightBracket
  | leftBrace => some rightBrace
  | _ => none

def Lexeme.opensValue : Lexeme → Bool
  | mark symbol => symbol.closing?.isSome
  | identifier _ => true
  | integer _ => true
  | string _ => true

namespace Reader

/-- One value, or two with a colon between them. -/
def skipItem (inner : Reader Unit) : Reader Unit := do
  inner
  if ← takeMark? .colon then inner

theorem advances_skipItem {inner : Reader Unit} (advances : inner.Advances) :
    (skipItem inner).Advances := by
  refine advances.bind fun _ => (keeps_takeMark? .colon).bind fun paired => ?_
  split
  · exact advances.keeps
  · exact keeps_pure ()

/-- The items of a bracketed value behind its opening bracket, and the closing one. -/
def skipItems (inner : Reader Unit) (advances : inner.Advances) (close : Mark) : Reader Unit := do
  items close (fun _ => skipItem inner) (fun _ => advances_skipItem advances) ()
  expect close .closeSkipped

theorem advances_skipItems {inner : Reader Unit} (advances : inner.Advances) (close : Mark) :
    (skipItems inner advances close).Advances :=
  (keeps_items _ _ _ _).bind_advances fun _ => advances_expect _ _

/-- The bracketed items that may stand behind a word. -/
def skipBehindWord (inner : Reader Unit) (advances : inner.Advances) : Reader Unit := do
  if ← takeMark? .leftParen then skipItems inner advances .rightParen

theorem keeps_skipBehindWord {inner : Reader Unit} (advances : inner.Advances) :
    (skipBehindWord inner advances).Keeps := by
  refine (keeps_takeMark? _).bind fun bracketed => ?_
  split
  · exact (advances_skipItems advances _).keeps
  · exact keeps_pure ()

/-- What belongs to a value behind its first lexeme. -/
def skipBehind (inner : Reader Unit) (advances : inner.Advances) : Lexeme → Reader Unit
  | .mark symbol =>
    match symbol.closing? with
    | some close => skipItems inner advances close
    | none => pure ()
  | .identifier _ => skipBehindWord inner advances
  | _ => pure ()

theorem keeps_skipBehind {inner : Reader Unit} (advances : inner.Advances) (front : Lexeme) :
    (skipBehind inner advances front).Keeps := by
  unfold skipBehind
  split
  · split
    · exact (advances_skipItems advances _).keeps
    · exact keeps_pure ()
  · exact keeps_skipBehindWord advances
  · exact keeps_pure ()

/-- A value whose items, if it has any, are read by `inner`. -/
def skipValueOver (inner : Reader Unit) (advances : inner.Advances) : Reader Unit := do
  let front ← take .value fun lexeme => if lexeme.opensValue then some (.ok lexeme) else none
  skipBehind inner advances front

theorem advances_skipValueOver {inner : Reader Unit} (advances : inner.Advances) :
    (skipValueOver inner advances).Advances :=
  (advances_take _ _).bind fun front => keeps_skipBehind advances front

/-- A value that nests at most `depth` deep. -/
def skipValueWithin : Nat → { reader : Reader Unit // reader.Advances }
  | 0 => ⟨refuse .nestedTooDeeply, advances_refuse _⟩
  | depth + 1 =>
    let inner := skipValueWithin depth
    ⟨skipValueOver inner.1 inner.2, advances_skipValueOver inner.2⟩

def maxDepth : Nat := 128

def skipValue : Reader Unit :=
  (skipValueWithin maxDepth).1

theorem advances_skipValue : skipValue.Advances :=
  (skipValueWithin maxDepth).2

end Reader

end OpcodeCatalog.Source

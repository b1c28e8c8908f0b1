import OpcodeCatalog.Diagnostic
import OpcodeCatalog.Source.Gap
import OpcodeCatalog.Source.Number
import OpcodeCatalog.Source.Quoted
import OpcodeCatalog.Source.RawString

/-!
# Scanning a source

A scanner stands somewhere in a source and hands out one located token after the
other.  The end of the source, or the first lexical fault, ends the tokens for
good.  Every token handed out uses up at least one byte.
-/

namespace OpcodeCatalog.Source

/-- A line and a column, both counted from one; columns count bytes. -/
structure Position where
  line : UInt32 := 1
  column : UInt32 := 1
  deriving DecidableEq

namespace Position

def next (position : Position) (byte : UInt8) : Position :=
  if byte = Ascii.newline then ⟨position.line + 1, 1⟩
  else ⟨position.line, position.column + 1⟩

/-- The position behind a text that starts at the given one. -/
def behind (position : Position) (text : Bytes) : Position :=
  text.foldl next position

end Position

/-- The lexeme at the front of a text, which opens with the byte `first`. -/
def lexeme (first : UInt8) (rest : Bytes) : Span (Except LexicalFault Lexeme) :=
  match Mark.ofByte? first with
  | some mark => ⟨.ok (.mark mark), 1⟩
  | none =>
    if first = Ascii.quote then
      ((Quoted.scan rest).map (·.map Lexeme.string)).after 1
    else if RawString.opens (first :: rest) then
      ((RawString.scan rest).map (·.map Lexeme.string)).after 1
    else if Ascii.opensWord first then
      let continuation := rest.takeWhile Ascii.continuesWord
      ⟨.ok (.identifier (first :: continuation)), 1 + continuation.length⟩
    else if Number.opens (first :: rest) then
      (Number.scan (first :: rest)).map (·.map Lexeme.integer)
    else ⟨.error (.unexpectedByte first), 1⟩

structure Token where
  lexeme : Lexeme
  location : Location
  deriving DecidableEq

/-- How the tokens of a source end: with the source, or with a fault in it. -/
structure Ending where
  fault : Option LexicalFault := none
  location : Location
  deriving DecidableEq

inductive Reading where
  | token (token : Token)
  | ending (ending : Ending)
  deriving DecidableEq

structure Scanner where
  file : UInt32
  position : Position := {}
  /-- The part of the source that is not used up. -/
  rest : Bytes
  failed : Bool := false

namespace Scanner

def ofSource (file : UInt32) (source : Bytes) : Scanner :=
  { file, rest := source }

def location (scanner : Scanner) : Location :=
  ⟨scanner.file, scanner.position.line, scanner.position.column⟩

def skip (scanner : Scanner) (width : Nat) : Scanner :=
  { scanner with
    position := scanner.position.behind (scanner.rest.take width)
    rest := scanner.rest.drop width }

/-- Ends the tokens at a fault whose construct starts where the scanner stands. -/
def fail (scanner : Scanner) (fault : LexicalFault) (width : Nat) : Reading × Scanner :=
  (.ending ⟨some fault, scanner.location⟩, { scanner.skip width with failed := true })

/-- The next token.  A comment that is never closed is located before the gap
that it belongs to, any other fault at the first byte of its construct. -/
def next (scanner : Scanner) : Reading × Scanner :=
  if scanner.failed then (.ending ⟨none, scanner.location⟩, scanner)
  else match Gap.width scanner.rest with
    | none => scanner.fail .unterminatedComment scanner.rest.length
    | some gap =>
      let start := scanner.skip gap
      match start.rest with
      | [] => (.ending ⟨none, start.location⟩, start)
      | first :: rest =>
        let read := lexeme first rest
        match read.value with
        | .ok lexeme => (.token ⟨lexeme, start.location⟩, start.skip read.width)
        | .error fault => start.fail fault read.width

end Scanner

theorem width_lexeme_pos (first : UInt8) (rest : Bytes) : 0 < (lexeme first rest).width := by
  unfold lexeme
  split
  · exact Nat.one_pos
  · split
    · exact Span.width_after_pos Nat.one_pos _
    · split
      · exact Span.width_after_pos Nat.one_pos _
      · split
        · exact Nat.add_pos_left Nat.one_pos _
        · split
          · next opens => exact Number.width_scan_pos opens
          · exact Nat.one_pos

namespace Scanner

theorem length_rest_next_token {scanner after : Scanner} {token : Token}
    (read : scanner.next = (.token token, after)) :
    after.rest.length < scanner.rest.length := by
  unfold next at read
  split at read
  · cases read
  · split at read
    · cases read
    · next gap _ =>
      simp only at read
      split at read
      · cases read
      · next first rest front =>
        split at read
        · have := width_lexeme_pos first rest
          cases read
          have bound := congrArg List.length front
          simp only [skip, List.length_drop, List.length_cons] at bound ⊢
          omega
        · cases read

end Scanner

end OpcodeCatalog.Source

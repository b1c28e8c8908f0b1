import OpcodeCatalog.Proofs.WrittenTexts
import Mathlib.Algebra.Group.Int.Defs

/-!
# Literals in front of a scanner

A string that was written in quotes and an integer literal that nothing continues
are used up whole, wherever the scanner stands and whatever follows.  The string
is read back byte for byte.  The integer is the number that its digits denote,
or a fault if that number does not fit; no number of digits makes it wrap.
-/

namespace OpcodeCatalog.Source

namespace Scanner

variable {scanner : Scanner} {first : UInt8} {text : Bytes} {width : Nat}

/-- A lexeme at the very front is handed out where the scanner stands. -/
theorem next_of_scanned {found : Lexeme} (sound : scanner.failed = false)
    (rest : scanner.rest = first :: text) (scanned : Scanned first text found width) :
    scanner.next = (.token ⟨found, scanner.location⟩, scanner.skip width) := by
  have atFront := scanned.front_eq
  rw [← rest] at atFront
  have read := next_of_lexeme sound atFront
  rw [Nat.zero_add] at read
  exact read

/-- A fault at the very front ends the tokens where the scanner stands. -/
theorem next_of_faulty {fault : LexicalFault} (sound : scanner.failed = false)
    (rest : scanner.rest = first :: text) (noGap : Gap.width (first :: text) = some 0)
    (faulty : lexeme first text = ⟨.error fault, width⟩) :
    scanner.next = scanner.fail fault width := by
  have start : (scanner.skip 0).rest = first :: text := rest
  unfold next
  rw [sound, rest, noGap]
  simp only [Bool.false_eq_true, if_false, start, faulty]
  rfl

/-- Behind one token, a scanner hands out the lexemes of the text that is left. -/
theorem run_behind_token {after : Scanner} {token : Token}
    (read : scanner.next = (.token token, after)) (sound : after.failed = false) (file : UInt32) :
    scanner.run.1 = after.run.1.behind [token] ∧
      after.run.1.lexemes = (TokenStream.ofSource file after.rest).lexemes ∧
      after.run.1.ending.fault = (TokenStream.ofSource file after.rest).ending.fault := by
  obtain ⟨tokens, fault, _⟩ := run_eq_lexed sound
  refine ⟨run_of_token read, ?_, ?_⟩
  · rw [TokenStream.lexemes_ofSource, TokenStream.lexemes, tokens, List.map_map]
    rfl
  · rw [TokenStream.fault_ofSource, fault]

end Scanner

namespace Quoted

/-- The bytes that break no line and show up as they are. -/
def Plain (byte : UInt8) : Prop :=
  0x20 ≤ byte ∧ byte ≠ 0x7F

instance (byte : UInt8) : Decidable (Plain byte) :=
  inferInstanceAs (Decidable (_ ∧ _))

theorem plain_digitByte {letters : LetterCase} {digit : Nat} (small : digit < 16) :
    Plain (digitByte letters digit) := by
  revert digit
  cases letters <;> decide

theorem plain_writeByte (byte : UInt8) : ∀ written ∈ writeByte byte, Plain written := by
  have escaped : ∀ text : Bytes, text.all (fun written => decide (Plain written)) = true →
      ∀ written ∈ text, Plain written := by
    intro text allPlain written member
    exact of_decide_eq_true (List.all_eq_true.mp allPlain written member)
  unfold writeByte
  split
  · exact escaped _ rfl
  split
  · exact escaped _ rfl
  split
  · exact escaped _ rfl
  split
  · exact escaped _ rfl
  split
  · exact escaped _ rfl
  split
  · exact escaped _ rfl
  split
  · intro written member
    have bound := byte.toNat_lt
    rcases List.mem_append.mp member with opening | digits
    · exact escaped _ rfl written opening
    · rcases List.mem_cons.mp digits with rfl | low
      · exact plain_digitByte (by omega)
      · rw [List.mem_singleton.mp low]
        exact plain_digitByte (by omega)
  · next shown =>
      rw [not_or, UInt8.not_lt] at shown
      intro written member
      rwa [List.mem_singleton.mp member]

theorem plain_write (text : Bytes) : ∀ written ∈ write text, Plain written := by
  intro written member
  rcases List.mem_cons.mp member with rfl | later
  · decide
  · rcases List.mem_append.mp later with inside | closing
    · obtain ⟨byte, _, shown⟩ := List.mem_flatMap.mp inside
      exact plain_writeByte byte written shown
    · rw [List.mem_singleton.mp closing]
      decide

/-- A text in quotes is handed out as that text, and uses up its own bytes only: the scanner
goes on with whatever follows them.  No byte of it breaks a line. -/
theorem next_of_written (file : UInt32) (position : Position) (text rest : Bytes) :
    let scanner : Scanner := { file, position, rest := write text ++ rest }
    let after : Scanner := { file, position := position.behind (write text), rest }
    scanner.next = (.token ⟨.string text, scanner.location⟩, after) ∧
      scanner.run.1 = after.run.1.behind [⟨.string text, scanner.location⟩] ∧
      after.run.1.lexemes = (TokenStream.ofSource file rest).lexemes ∧
      after.run.1.ending.fault = (TokenStream.ofSource file rest).ending.fault ∧
      ∀ byte ∈ write text, 0x20 ≤ byte ∧ byte ≠ 0x7F := by
  intro scanner after
  have scanned : Scanned Ascii.quote (text.flatMap writeByte ++ [Ascii.quote] ++ rest)
      (.string text) (write text).length := by
    have quoted := Scanned.quoted rfl (scan_write text rest)
    rwa [Nat.add_comm] at quoted
  have read : scanner.next = (.token ⟨.string text, scanner.location⟩, after) := by
    have skipped : scanner.skip (write text).length = after := by
      simp only [Scanner.skip, scanner, after, List.take_left, List.drop_left]
    rw [← skipped]
    exact Scanner.next_of_scanned rfl rfl scanned
  obtain ⟨run, lexemes, fault⟩ := Scanner.run_behind_token read rfl file
  exact ⟨read, run, lexemes, fault, plain_write text⟩

end Quoted

namespace Number

variable {negative : Bool} {radix : Radix} {found : List Nat}

/-- A literal: a sign, a radix mark, and digits with underscores among them.  There is at
least one digit, and without a radix mark a digit comes first. -/
structure Literal (negative : Bool) (radix : Radix) (digits : List Nat) where
  sign : Bytes
  mark : Bytes
  body : Bytes
  signed : SignText sign negative
  marked : RadixText mark radix
  shown : DigitsText radix body digits
  nonempty : digits ≠ []
  opens : mark = [] → ∃ byte, body.head? = some byte ∧ Ascii.isDigit byte = true

namespace Literal

variable (literal : Literal negative radix found)

def text : Bytes :=
  literal.sign ++ (literal.mark ++ literal.body)

/-- With or without a radix mark, a digit stands behind the sign. -/
theorem exists_digit : ∃ byte later, literal.mark ++ literal.body = byte :: later ∧
    Ascii.isDigit byte = true := by
  obtain ⟨sign, mark, body, signed, marked, shown, nonempty, opens⟩ := literal
  cases marked with
  | unmarked =>
      obtain ⟨byte, front, digit⟩ := opens rfl
      obtain ⟨later, rfl⟩ := List.head?_eq_some_iff.mp front
      exact ⟨byte, later, rfl, digit⟩
  | marked told => exact ⟨_, _, rfl, rfl⟩

theorem exists_opening (rest : Bytes) : ∃ first later, literal.text ++ rest = first :: later ∧
    Number.opens (first :: later) = true := by
  obtain ⟨byte, later, split, digit⟩ := literal.exists_digit
  obtain ⟨sign, mark, body, signed, marked, shown, nonempty, opens⟩ := literal
  simp only at split
  unfold text
  simp only [split]
  cases signed with
  | unsigned => exact ⟨_, _, rfl, opens_iff.mpr (.inl digit)⟩
  | plus => exact ⟨_, _, rfl, opens_iff.mpr (.inr ⟨rfl, byte, rfl, digit⟩)⟩
  | minus => exact ⟨_, _, rfl, opens_iff.mpr (.inr ⟨rfl, byte, rfl, digit⟩)⟩

theorem scan_eq {rest : Bytes} (ends : Ends radix rest) :
    scan (literal.text ++ rest) =
      ⟨if InRange (literalValue negative radix found) then
          .ok (literalValue negative radix found)
        else .error .integerOutOfRange, literal.text.length⟩ := by
  obtain ⟨byte, later, split, _⟩ := literal.exists_digit
  have written : literal.text ≠ [] := by
    unfold text
    rw [split]
    exact List.append_ne_nil_of_right_ne_nil _ (List.cons_ne_nil _ _)
  have read := scan_of_text (.parts literal.signed literal.marked literal.shown) written ends.apart
  rw [judge_of_ended literal.nonempty ends.not_fraction ends.filter_eq_none] at read
  exact read

end Literal

/-- A literal that nothing continues is used up whole.  It is handed out as the number that it
denotes if that fits into 64 bits with a sign, and refused where it starts if it does not. -/
theorem next_of_literal (file : UInt32) (position : Position)
    (literal : Literal negative radix found) {rest : Bytes} (ends : Ends radix rest) :
    let scanner : Scanner := { file, position, rest := literal.text ++ rest }
    let after : Scanner := { file, position := position.behind literal.text, rest }
    let value := literalValue negative radix found
    (-2 ^ 63 ≤ value ∧ value ≤ 2 ^ 63 - 1 →
        scanner.next = (.token ⟨.integer value, scanner.location⟩, after)) ∧
      (¬ (-2 ^ 63 ≤ value ∧ value ≤ 2 ^ 63 - 1) → ∃ fault : LexicalFault,
        fault.message = ascii "integer literal out of range" ∧
          scanner.next =
            (.ending ⟨some fault, scanner.location⟩, { after with failed := true })) := by
  intro scanner after value
  obtain ⟨first, later, split, opens⟩ := literal.exists_opening rest
  have front : scanner.rest = first :: later := split
  have skipped : scanner.skip literal.text.length = after := by
    simp only [Scanner.skip, scanner, after, List.take_left, List.drop_left]
  have range : (-2 ^ 63 ≤ value ∧ value ≤ 2 ^ 63 - 1) ↔ InRange value := by
    unfold InRange
    omega
  have read := literal.scan_eq ends
  rw [split] at read
  rw [range, ← skipped]
  constructor
  · intro inRange
    rw [if_pos inRange] at read
    exact Scanner.next_of_scanned rfl front (.number opens read)
  · intro outside
    rw [if_neg outside] at read
    refine ⟨.integerOutOfRange, rfl, ?_⟩
    obtain ⟨notBlank, notSlash⟩ := not_gap_of_opens opens
    apply Scanner.next_of_faulty rfl front (Gap.width_other notBlank notSlash later)
    rw [lexeme_number opens, read]
    rfl

/-- The least number that fits, and the first one that does not. -/
theorem next_of_literal_of_limits :
    (∃ literal : Literal true .hexadecimal (8 :: List.replicate 15 0),
        literal.text = ascii "-0X_8000000000000000" ∧ Ends .hexadecimal (ascii ".") ∧
          let scanner : Scanner := { file := 7, rest := literal.text ++ ascii "." }
          scanner.next = (.token ⟨.integer (-2 ^ 63), scanner.location⟩,
            { file := 7, position := ⟨1, 21⟩, rest := ascii "." })) ∧
      ∃ literal : Literal false .decimal [9, 2, 2, 3, 3, 7, 2, 0, 3, 6, 8, 5, 4, 7, 7, 5, 8, 0, 8],
        literal.text = ascii "+9223372036854775808" ∧ Ends .decimal [] ∧
          let scanner : Scanner := { file := 7, rest := literal.text ++ [] }
          ∃ fault : LexicalFault, fault.message = ascii "integer literal out of range" ∧
            scanner.next = (.ending ⟨some fault, scanner.location⟩,
              { file := 7, position := ⟨1, 21⟩, rest := [], failed := true }) := by
  constructor
  · have small : ∀ digit ∈ 8 :: List.replicate 15 0, digit < Radix.hexadecimal.base := by decide
    let literal : Literal true .hexadecimal (8 :: List.replicate 15 0) :=
      { sign := ascii "-"
        mark := ascii "0X"
        body := ascii "_8000000000000000"
        signed := .minus
        marked := .marked rfl
        shown := .underscore (@digitsText_map _ .lower _ small)
        nonempty := List.cons_ne_nil _ _
        opens := nofun }
    have ends : Ends .hexadecimal (ascii ".") := by
      intro byte front
      cases front
      exact ⟨rfl, nofun⟩
    exact ⟨literal, rfl, ends, (next_of_literal 7 {} literal ends).1 (by decide)⟩
  · have small : ∀ digit ∈ [9, 2, 2, 3, 3, 7, 2, 0, 3, 6, 8, 5, 4, 7, 7, 5, 8, 0, 8],
        digit < Radix.decimal.base := by decide
    let literal : Literal false .decimal
        [9, 2, 2, 3, 3, 7, 2, 0, 3, 6, 8, 5, 4, 7, 7, 5, 8, 0, 8] :=
      { sign := ascii "+"
        mark := []
        body := ascii "9223372036854775808"
        signed := .plus
        marked := .unmarked
        shown := @digitsText_map _ .lower _ small
        nonempty := List.cons_ne_nil _ _
        opens := fun _ => ⟨_, rfl, rfl⟩ }
    have ends : Ends .decimal [] := nofun
    exact ⟨literal, rfl, ends, (next_of_literal 7 {} literal ends).2 (by decide)⟩

end Number

end OpcodeCatalog.Source

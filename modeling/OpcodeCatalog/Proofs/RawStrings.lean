import OpcodeCatalog.Proofs.ScannedLiterals

/-!
# Raw strings

A raw string ends where its closing, a quote and as many hashes as opened it,
occurs first.  A closing begins with its only quote, so none can begin in a text
and end in the closing behind that text: a text is read back whole exactly if no
closing occurs within the text itself.
-/

namespace OpcodeCatalog.Source.RawString

/-- The letter, the hashes and the quote in front of the text. -/
def opening (hashes : Nat) : Bytes :=
  'r'.toUInt8 :: (List.replicate hashes Ascii.hash ++ [Ascii.quote])

def closing (hashes : Nat) : Bytes :=
  Ascii.quote :: List.replicate hashes Ascii.hash

def literal (hashes : Nat) (text : Bytes) : Bytes :=
  opening hashes ++ (text ++ closing hashes)

variable {hashes : Nat} {text rest read : Bytes}

theorem length_closing : (closing hashes).length = 1 + hashes := by
  rw [closing, List.length_cons, List.length_replicate, Nat.add_comm]

theorem closes_iff {byte : UInt8} :
    (byte == Ascii.quote && startsWithHashes hashes rest) = true ↔
      closing hashes <+: byte :: rest := by
  rw [Bool.and_eq_true, beq_iff_eq, startsWithHashes_iff, closing, List.cons_prefix_cons, eq_comm]

theorem body_closed (rest : Bytes) :
    body hashes (closing hashes ++ rest) = ⟨.ok [], 1 + hashes⟩ :=
  body_closing hashes rest

theorem body_open {byte : UInt8} (isOpen : ¬ closing hashes <+: byte :: rest) :
    body hashes (byte :: rest) = ((body hashes rest).map (·.map (byte :: ·))).after 1 :=
  body_plain (closes_iff.not.mpr isOpen)

/-- What a text begins with is a closing only if that closing ends within the text. -/
theorem closing_prefix_of_append (nonempty : text ≠ [])
    (front : closing hashes <+: text ++ (closing hashes ++ rest)) : closing hashes <+: text := by
  rcases Nat.lt_or_ge text.length (closing hashes).length with long | short
  · -- The quote behind the text would have to be a hash of the closing in front of it.
    have positive := List.length_pos_iff.mpr nonempty
    obtain ⟨later, split⟩ := front
    have hash : (closing hashes ++ later)[text.length]? = some Ascii.hash := by
      rw [List.getElem?_append_left long, closing, List.getElem?_cons, if_neg positive.ne']
      apply List.getElem?_replicate_of_lt
      rw [length_closing] at long
      omega
    have quote : (text ++ (closing hashes ++ rest))[text.length]? = some Ascii.quote := by
      rw [List.getElem?_append_right (Nat.le_refl _), Nat.sub_self]
      rfl
    rw [split, quote] at hash
    cases hash
  · exact List.prefix_of_prefix_length_le front (List.prefix_append _ _) short

/-- A text without a closing is read up to the closing behind it. -/
theorem body_of_text (inside : ¬ closing hashes <:+: text) (rest : Bytes) :
    body hashes (text ++ (closing hashes ++ rest)) = ⟨.ok text, text.length + (1 + hashes)⟩ := by
  induction text with
  | nil =>
      rw [List.nil_append, body_closed, List.length_nil, Nat.zero_add]
  | cons byte text induction =>
      rw [List.infix_cons_iff, not_or] at inside
      have isOpen : ¬ closing hashes <+: byte :: (text ++ (closing hashes ++ rest)) := by
        intro front
        exact inside.1 (closing_prefix_of_append (List.cons_ne_nil byte text) front)
      rw [List.cons_append, body_open isOpen, induction inside.2]
      exact Span.after_map_eq_ok_iff.mpr ⟨_, _, rfl, rfl, by rw [List.length_cons]; omega⟩

/-- No text that is read holds a closing: the reading would have ended in front of it. -/
theorem not_closing_infix_of_scans {width : Nat} (scanned : Scans (body hashes) text read width) :
    read ++ closing hashes <+: text ∧ ¬ closing hashes <:+: read := by
  induction text generalizing read width with
  | nil => cases scanned
  | cons byte text induction =>
      by_cases front : closing hashes <+: byte :: text
      · have ended := front
        obtain ⟨later, split⟩ := front
        rw [← split, Scans, body_closed] at scanned
        cases scanned
        refine ⟨ended, ?_⟩
        rw [List.infix_nil]
        exact List.cons_ne_nil _ _
      · rw [Scans, body_open front] at scanned
        obtain ⟨inner, _, scannedInner, rfl, _⟩ := Span.after_map_eq_ok_iff.mp scanned
        obtain ⟨ended, inside⟩ := induction scannedInner
        refine ⟨List.cons_prefix_cons.mpr ⟨rfl, ended⟩, ?_⟩
        rw [List.infix_cons_iff, not_or]
        refine ⟨?_, inside⟩
        intro early
        apply front
        apply early.trans
        exact List.cons_prefix_cons.mpr ⟨rfl, (List.prefix_append _ _).trans ended⟩

/-- Without a closing all of the text is used up in vain. -/
theorem body_unterminated (absent : ¬ closing hashes <:+: text) :
    body hashes text = ⟨.error .unterminatedRawString, text.length⟩ := by
  induction text with
  | nil => rfl
  | cons byte text induction =>
      rw [List.infix_cons_iff, not_or] at absent
      rw [body_open absent.1, induction absent.2, List.length_cons, Nat.add_comm]
      rfl

theorem opening_append (hashes : Nat) (rest : Bytes) :
    opening hashes ++ rest =
      'r'.toUInt8 :: (List.replicate hashes Ascii.hash ++ Ascii.quote :: rest) := by
  rw [opening, List.cons_append, List.append_assoc, List.singleton_append]

theorem length_literal (hashes : Nat) (text : Bytes) :
    (literal hashes text).length = 1 + (hashes + 1 + (text.length + (1 + hashes))) := by
  simp only [literal, opening, closing, List.length_append, List.length_cons,
    List.length_replicate, List.length_nil]
  omega

theorem opens_opening (hashes : Nat) (rest : Bytes) : opens (opening hashes ++ rest) = true := by
  apply opens_iff.mpr
  refine ⟨rfl, ?_⟩
  cases hashes with
  | zero => exact .inl rfl
  | succ hashes => exact .inr rfl

theorem lexeme_opening (hashes : Nat) (rest : Bytes) :
    lexeme 'r'.toUInt8 (List.replicate hashes Ascii.hash ++ Ascii.quote :: rest) =
      (((body hashes rest).after (hashes + 1)).map (·.map Lexeme.string)).after 1 := by
  have opens := opens_opening hashes rest
  rw [opening_append] at opens
  rw [lexeme_raw opens, scan_opening]

section Scanning

variable {scanner : Scanner} {width : Nat}

/-- Behind its opening, a raw string is told by its body. -/
theorem next_of_scans_body (sound : scanner.failed = false)
    (front : scanner.rest = opening hashes ++ rest)
    (scanned : Scans (body hashes) rest read width) :
    scanner.next =
      (.token ⟨.string read, scanner.location⟩, scanner.skip (1 + (hashes + 1 + width))) := by
  rw [opening_append] at front
  apply Scanner.next_of_scanned sound front
  apply lexeme_eq_ok_iff.mp
  rw [lexeme_opening, scanned]
  rfl

theorem next_of_faulty_body {fault : LexicalFault} (sound : scanner.failed = false)
    (front : scanner.rest = opening hashes ++ rest)
    (faulty : body hashes rest = ⟨.error fault, width⟩) :
    scanner.next = scanner.fail fault (1 + (hashes + 1 + width)) := by
  rw [opening_append] at front
  apply Scanner.next_of_faulty sound front
  · exact Gap.width_other rfl (by decide) _
  · rw [lexeme_opening, faulty]
    rfl

/-- No closing stands in what is handed out for a raw string. -/
theorem not_closing_infix_of_next {place : Location} {after : Scanner}
    (sound : scanner.failed = false) (front : scanner.rest = opening hashes ++ rest)
    (handed : scanner.next = (.token ⟨.string text, place⟩, after)) :
    ¬ closing hashes <:+: text := by
  cases outcome : body hashes rest with
  | mk value width =>
      cases value with
      | error fault =>
          rw [next_of_faulty_body sound front outcome] at handed
          cases handed
      | ok read =>
          rw [next_of_scans_body sound front outcome] at handed
          cases handed
          exact (not_closing_infix_of_scans outcome).2

end Scanning

/-- A raw string is handed out as its text, byte for byte, and uses up its own bytes only, exactly
if its closing does not occur in the text; otherwise the text is not handed out at all.  Where no
closing follows the opening, the string is refused as unterminated. -/
theorem next_of_raw (file : UInt32) (position : Position) (hashes : Nat) (text rest : Bytes) :
    let scanner : Scanner := { file, position, rest := literal hashes text ++ rest }
    let after : Scanner := { file, position := position.behind (literal hashes text), rest }
    (scanner.next = (.token ⟨.string text, scanner.location⟩, after) ↔
        ¬ closing hashes <:+: text) ∧
      (closing hashes <:+: text →
        ∀ place last, scanner.next ≠ (.token ⟨.string text, place⟩, last)) ∧
      ∀ tail, ¬ closing hashes <:+: tail →
        let scanner : Scanner := { file, position, rest := opening hashes ++ tail }
        ∃ fault last, fault.message = ascii "unterminated raw string literal" ∧
          scanner.next = (.ending ⟨some fault, scanner.location⟩, last) := by
  intro scanner after
  have front : scanner.rest = opening hashes ++ (text ++ (closing hashes ++ rest)) := by
    change opening hashes ++ (text ++ closing hashes) ++ rest = _
    rw [List.append_assoc, List.append_assoc]
  have skipped : scanner.skip (literal hashes text).length = after := by
    simp only [Scanner.skip, scanner, after, List.take_left, List.drop_left]
  refine ⟨⟨?_, ?_⟩, ?_, ?_⟩
  · intro handed
    exact not_closing_infix_of_next rfl front handed
  · intro inside
    rw [← skipped, length_literal]
    exact next_of_scans_body rfl front (body_of_text inside rest)
  · intro within place last handed
    exact not_closing_infix_of_next rfl front handed within
  · intro tail absent scanner
    exact ⟨.unterminatedRawString, _, rfl, next_of_faulty_body rfl rfl (body_unterminated absent)⟩

/-- A text with a backslash, a new line and a run of one hash.  Behind one hash it would end early,
and behind three it never ends. -/
theorem next_of_raw_of_shorterRuns :
    let text := ascii "\\n\"#\n\""
    let scanner : Scanner := { file := 7, rest := literal 2 text ++ ascii "#" }
    let early : Scanner := { file := 7, rest := literal 1 text }
    let unclosed : Scanner := { file := 7, rest := opening 3 ++ (text ++ closing 2) }
    ¬ closing 2 <:+: text ∧
      scanner.next = (.token ⟨.string text, ⟨7, 1, 1⟩⟩,
        { file := 7, position := ⟨2, 5⟩, rest := ascii "#" }) ∧
      closing 1 <:+: text ∧
      (∀ place last, early.next ≠ (.token ⟨.string text, place⟩, last)) ∧
      ¬ closing 3 <:+: text ++ closing 2 ∧
      ∃ fault last, fault.message = ascii "unterminated raw string literal" ∧
        unclosed.next = (.ending ⟨some fault, ⟨7, 1, 1⟩⟩, last) := by
  intro text scanner early unclosed
  have inside : ¬ closing 2 <:+: text := by decide +kernel
  have within : closing 1 <:+: text := by decide +kernel
  have absent : ¬ closing 3 <:+: text ++ closing 2 := by decide +kernel
  have whole : early.rest = literal 1 text ++ [] := (List.append_nil _).symm
  refine ⟨inside, (next_of_raw 7 {} 2 text (ascii "#")).1.mpr inside, within, ?_, absent,
    (next_of_raw 7 {} 3 text []).2.2 _ absent⟩
  have refused := (next_of_raw 7 {} 1 text []).2.1 within
  rw [← whole] at refused
  exact refused

end OpcodeCatalog.Source.RawString

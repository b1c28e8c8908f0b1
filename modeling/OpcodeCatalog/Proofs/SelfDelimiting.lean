import OpcodeCatalog.Source.Gap
import OpcodeCatalog.Source.Quoted
import OpcodeCatalog.Source.RawString

/-!
# Texts that tell where they end

Strings and block comments are closed by bytes of their own.  Reading one
therefore depends on the bytes that it uses up only: whatever follows them, it
reads the same, and nothing that is cut off within them can be read.
-/

namespace OpcodeCatalog.Source

/-- What is read is told by the bytes that it uses up. -/
def SelfDelimiting (reads : Bytes → α → Nat → Prop) : Prop :=
  ∀ ⦃text value width⦄, reads text value width →
    ∃ used rest, text = used ++ rest ∧ used.length = width ∧
      ∀ other, reads (used ++ other) value width

namespace SelfDelimiting

variable {reads : Bytes → α → Nat → Prop}

theorem width_le_length (delimited : SelfDelimiting reads) {text : Bytes} {value : α}
    {width : Nat} (read : reads text value width) : width ≤ text.length := by
  obtain ⟨used, rest, rfl, rfl, _⟩ := delimited read
  simp

/-- Where each text is read in one way only, nothing is read of a text that is cut off. -/
theorem not_reads_take (delimited : SelfDelimiting reads)
    (unique : ∀ ⦃text value value' width width'⦄,
      reads text value width → reads text value' width' → width = width')
    {text : Bytes} {value value' : α} {width width' cut : Nat}
    (read : reads text value width) (inside : cut < width) :
    ¬ reads (text.take cut) value' width' := by
  intro readCut
  have covered := delimited.width_le_length readCut
  obtain ⟨used, rest, split, length, again⟩ := delimited readCut
  have whole : text = used ++ (rest ++ text.drop cut) := by
    rw [← List.append_assoc, ← split, List.take_append_drop]
  have readWhole := again (rest ++ text.drop cut)
  rw [← whole] at readWhole
  have same := unique read readWhole
  rw [List.length_take] at covered
  omega

end SelfDelimiting

/-- What a scanner reads without a fault. -/
def Scans (scan : Bytes → Span (Except LexicalFault α)) (text : Bytes) (value : α)
    (width : Nat) : Prop :=
  scan text = ⟨.ok value, width⟩

theorem Scans.unique {scan : Bytes → Span (Except LexicalFault α)} ⦃text : Bytes⦄
    ⦃value value' : α⦄ ⦃width width' : Nat⦄ (read : Scans scan text value width)
    (read' : Scans scan text value' width') : width = width' := by
  have same := read.symm.trans read'
  cases same
  rfl

theorem Span.after_eq_ok_iff {span : Span (Except LexicalFault α)} {before width : Nat}
    {value : α} :
    span.after before = ⟨.ok value, width⟩ ↔
      ∃ innerWidth, span = ⟨.ok value, innerWidth⟩ ∧ before + innerWidth = width := by
  obtain ⟨found, innerWidth⟩ := span
  constructor
  · intro same
    cases same
    exact ⟨innerWidth, rfl, rfl⟩
  · intro same
    obtain ⟨_, same, rfl⟩ := same
    cases same
    rfl

theorem Span.map_eq_ok_iff {span : Span (Except LexicalFault α)} {change : α → β} {width : Nat}
    {value : β} :
    span.map (·.map change) = ⟨.ok value, width⟩ ↔
      ∃ inner, span = ⟨.ok inner, width⟩ ∧ change inner = value := by
  obtain ⟨found, innerWidth⟩ := span
  cases found with
  | error fault => simp [Span.map, Except.map]
  | ok inner =>
      simp only [Span.map, Except.map, Span.mk.injEq, Except.ok.injEq]
      constructor
      · intro same
        exact ⟨inner, ⟨rfl, same.2⟩, same.1⟩
      · intro found
        obtain ⟨_, ⟨rfl, sameWidth⟩, same⟩ := found
        exact ⟨same, sameWidth⟩

theorem Span.after_map_eq_ok_iff {span : Span (Except LexicalFault α)} {change : α → β}
    {before width : Nat} {value : β} :
    (span.map (·.map change)).after before = ⟨.ok value, width⟩ ↔
      ∃ inner innerWidth, span = ⟨.ok inner, innerWidth⟩ ∧ change inner = value ∧
        before + innerWidth = width := by
  simp only [Span.after_eq_ok_iff, Span.map_eq_ok_iff]
  constructor
  · intro found
    obtain ⟨innerWidth, ⟨inner, same, changed⟩, wide⟩ := found
    exact ⟨inner, innerWidth, same, changed, wide⟩
  · intro found
    obtain ⟨inner, innerWidth, same, changed, wide⟩ := found
    exact ⟨innerWidth, ⟨inner, same, changed⟩, wide⟩

namespace Quoted

theorem byteEscape_selfDelimiting : SelfDelimiting (Scans byteEscape) := by
  intro text value width read
  unfold Scans byteEscape at read
  split at read
  · next high low rest =>
      split at read
      · next highValue lowValue =>
          cases read
          refine ⟨[high, low], rest, rfl, rfl, ?_⟩
          intro other
          simp [Scans, byteEscape, highValue, lowValue]
      · cases read
  · cases read

theorem bracedDigits_closing (room : Nat) (rest : Bytes) :
    bracedDigits room ('}'.toUInt8 :: rest) = ⟨some [], 1⟩ := by
  unfold bracedDigits
  exact if_pos rfl

theorem bracedDigits_digit {byte : UInt8} {digit : Nat} (inside : byte ≠ '}'.toUInt8)
    (valued : hexDigitValue byte = some digit) (room : Nat) (rest : Bytes) :
    bracedDigits (room + 1) (byte :: rest) =
      ((bracedDigits room rest).map (·.map (digit :: ·))).after 1 := by
  rw [bracedDigits.eq_def]
  simp only [if_neg inside, valued]

theorem bracedDigits_selfDelimiting (room : Nat) :
    SelfDelimiting fun text digits width => bracedDigits room text = ⟨some digits, width⟩ := by
  intro text digits width read
  induction text generalizing room digits width with
  | nil =>
      rw [bracedDigits] at read
      cases read
  | cons byte rest induction =>
      by_cases closing : byte = '}'.toUInt8
      · subst closing
        rw [bracedDigits_closing] at read
        cases read
        exact ⟨['}'.toUInt8], rest, rfl, rfl, bracedDigits_closing room⟩
      · unfold bracedDigits at read
        rw [if_neg closing] at read
        split at read
        · next left digit valued =>
            generalize later_eq : bracedDigits left rest = later at read
            obtain ⟨found, laterWidth⟩ := later
            cases found with
            | none => cases read
            | some laterDigits =>
                cases read
                obtain ⟨used, rest, rfl, rfl, again⟩ := induction left later_eq
                refine ⟨byte :: used, rest, rfl, Nat.add_comm used.length 1, ?_⟩
                intro other
                have readAgain := again other
                simp only at readAgain ⊢
                rw [List.cons_append, bracedDigits_digit closing valued, readAgain]
                rfl
        · cases read

theorem codePointEscape_selfDelimiting : SelfDelimiting (Scans codePointEscape) := by
  intro text value width read
  unfold Scans codePointEscape at read
  split at read
  · cases read
  · next opening rest =>
      split at read
      · next braced =>
          generalize digits_eq : bracedDigits 6 rest = digits at read
          obtain ⟨found, digitsWidth⟩ := digits
          simp only at read
          split at read
          · next encoded valid =>
              cases read
              obtain ⟨digits, rfl, encodes⟩ := Option.bind_eq_some_iff.mp valid
              obtain ⟨used, rest, rfl, rfl, again⟩ := bracedDigits_selfDelimiting 6 digits_eq
              refine ⟨opening :: used, rest, rfl, Nat.add_comm used.length 1, ?_⟩
              intro other
              simp only [Scans, List.cons_append, codePointEscape, if_pos braced, again other,
                Option.bind_some, encodes]
          · cases read
      · cases read

theorem escape_selfDelimiting : SelfDelimiting (Scans escape) := by
  have shifted : ∀ {scan : Bytes → Span (Except LexicalFault Bytes)} {letter : UInt8}
      {rest : Bytes} {value : Bytes} {width : Nat}, SelfDelimiting (Scans scan) →
      (∀ other, escape (letter :: other) = (scan other).after 1) →
      Scans escape (letter :: rest) value width →
      ∃ used tail, letter :: rest = used ++ tail ∧ used.length = width ∧
        ∀ other, Scans escape (used ++ other) value width := by
    intro scan letter rest value width delimited behind read
    rw [Scans, behind] at read
    obtain ⟨innerWidth, readInner, rfl⟩ := Span.after_eq_ok_iff.mp read
    obtain ⟨used, tail, rfl, rfl, again⟩ := delimited readInner
    refine ⟨letter :: used, tail, rfl, Nat.add_comm used.length 1, ?_⟩
    intro other
    rw [Scans, List.cons_append, behind]
    exact Span.after_eq_ok_iff.mpr ⟨_, again other, rfl⟩
  intro text value width read
  cases text with
  | nil => cases read
  | cons letter rest =>
      by_cases isByte : letter = 'x'.toUInt8
      · refine shifted byteEscape_selfDelimiting ?_ read
        intro other
        rw [escape, if_pos isByte]
      · by_cases isCodePoint : letter = 'u'.toUInt8
        · refine shifted codePointEscape_selfDelimiting ?_ read
          intro other
          rw [escape, if_neg isByte, if_pos isCodePoint]
        · rw [Scans, escape, if_neg isByte, if_neg isCodePoint] at read
          split at read
          · next byte known =>
              cases read
              refine ⟨[letter], rest, rfl, rfl, ?_⟩
              intro other
              simp [Scans, escape, isByte, isCodePoint, known]
          · cases read

theorem scan_escape {rest escaped : Bytes} {width : Nat} (read : Scans escape rest escaped width) :
    scan (Ascii.backslash :: rest) =
      ((scan (rest.drop width)).map (·.map (escaped ++ ·))).after (1 + width) := by
  rw [scan]
  simp only [show Ascii.backslash ≠ Ascii.quote by decide, if_false, if_true]
  rw [read]

theorem scan_plain {byte : UInt8} (notQuote : byte ≠ Ascii.quote)
    (notBackslash : byte ≠ Ascii.backslash) (rest : Bytes) :
    scan (byte :: rest) = ((scan rest).map (·.map (byte :: ·))).after 1 := by
  rw [scan, if_neg notQuote, if_neg notBackslash]

theorem scan_closing (rest : Bytes) : scan (Ascii.quote :: rest) = ⟨.ok [], 1⟩ := by
  rw [scan, if_pos rfl]

theorem scan_selfDelimiting : SelfDelimiting (Scans scan) := by
  intro text value width read
  induction text using scan.induct generalizing value width with
  | case1 =>
      rw [Scans, scan] at read
      cases read
  | case2 rest =>
      rw [Scans, scan_closing] at read
      cases read
      exact ⟨[Ascii.quote], rest, rfl, rfl, scan_closing⟩
  | case3 rest escape fault faulty =>
      rw [Scans, scan] at read
      simp only [show Ascii.backslash ≠ Ascii.quote by decide, if_false, if_true] at read
      rw [faulty] at read
      cases read
  | case4 rest escape escaped valid _ =>
      rename_i induction
      have readEscape : Scans Quoted.escape rest escaped escape.width := by
        rw [Scans, ← valid]
      obtain ⟨spelling, behind, rfl, length, again⟩ := escape_selfDelimiting readEscape
      rw [Scans, scan_escape readEscape] at read
      rw [← length, List.drop_left] at read induction
      obtain ⟨later, laterWidth, readLater, rfl, rfl⟩ := Span.after_map_eq_ok_iff.mp read
      obtain ⟨used, rest, rfl, rfl, againLater⟩ := induction readLater
      refine ⟨Ascii.backslash :: (spelling ++ used), rest, by simp, ?_, ?_⟩
      · simp
        omega
      · intro other
        have same : Ascii.backslash :: (spelling ++ used) ++ other =
            Ascii.backslash :: (spelling ++ (used ++ other)) := by simp
        rw [Scans, same, scan_escape (again _), ← length, List.drop_left]
        exact Span.after_map_eq_ok_iff.mpr ⟨_, _, againLater other, rfl, rfl⟩
  | case5 byte rest notQuote notBackslash induction =>
      rw [Scans, scan_plain notQuote notBackslash] at read
      obtain ⟨later, laterWidth, readLater, rfl, rfl⟩ := Span.after_map_eq_ok_iff.mp read
      obtain ⟨used, rest, rfl, rfl, again⟩ := induction readLater
      refine ⟨byte :: used, rest, rfl, Nat.add_comm used.length 1, ?_⟩
      intro other
      rw [Scans, List.cons_append, scan_plain notQuote notBackslash]
      exact Span.after_map_eq_ok_iff.mpr ⟨_, _, again other, rfl, rfl⟩

end Quoted

namespace RawString

theorem startsWithHashes_append {count : Nat} {text : Bytes} (enough : count ≤ text.length)
    (other : Bytes) : startsWithHashes count (text ++ other) = startsWithHashes count text := by
  rw [Bool.eq_iff_iff, startsWithHashes_iff, startsWithHashes_iff]
  constructor
  · intro front
    apply List.prefix_of_prefix_length_le front (List.prefix_append text other)
    rwa [List.length_replicate]
  · intro front
    exact front.trans (List.prefix_append text other)

theorem body_plain {hashes : Nat} {byte : UInt8} {rest : Bytes}
    (inside : ¬ (byte == Ascii.quote && startsWithHashes hashes rest) = true) :
    body hashes (byte :: rest) = ((body hashes rest).map (·.map (byte :: ·))).after 1 := by
  rw [body, if_neg inside]

theorem body_closing (hashes : Nat) (rest : Bytes) :
    body hashes (Ascii.quote :: (List.replicate hashes Ascii.hash ++ rest)) =
      ⟨.ok [], 1 + hashes⟩ := by
  have closed : startsWithHashes hashes (List.replicate hashes Ascii.hash ++ rest) = true :=
    startsWithHashes_iff.mpr (List.prefix_append _ _)
  rw [body, closed]
  rfl

theorem lt_width_of_scans_body {hashes : Nat} {text value : Bytes} {width : Nat}
    (read : Scans (body hashes) text value width) : hashes < width := by
  induction text generalizing value width with
  | nil => cases read
  | cons byte rest induction =>
      rw [Scans, body] at read
      split at read
      · cases read
        omega
      · obtain ⟨later, laterWidth, readLater, _, rfl⟩ := Span.after_map_eq_ok_iff.mp read
        have wider := induction readLater
        omega

theorem body_selfDelimiting (hashes : Nat) : SelfDelimiting (Scans (body hashes)) := by
  intro text value width read
  induction text generalizing value width with
  | nil => cases read
  | cons byte rest induction =>
      by_cases closing : (byte == Ascii.quote && startsWithHashes hashes rest) = true
      · obtain ⟨isQuote, closed⟩ := Bool.and_eq_true_iff.mp closing
        obtain rfl : byte = Ascii.quote := beq_iff_eq.mp isQuote
        obtain ⟨behind, rfl⟩ := startsWithHashes_iff.mp closed
        rw [Scans, body_closing] at read
        cases read
        refine ⟨Ascii.quote :: List.replicate hashes Ascii.hash, behind, rfl, ?_,
          body_closing hashes⟩
        simp
        omega
      · rw [Scans, body_plain closing] at read
        obtain ⟨later, laterWidth, readLater, rfl, rfl⟩ := Span.after_map_eq_ok_iff.mp read
        have wider := lt_width_of_scans_body readLater
        obtain ⟨used, rest, rfl, rfl, again⟩ := induction readLater
        refine ⟨byte :: used, rest, rfl, Nat.add_comm used.length 1, ?_⟩
        intro other
        -- The hashes behind an inner quote lie within what is used up.
        rw [startsWithHashes_append (Nat.le_of_lt wider)] at closing
        rw [← startsWithHashes_append (Nat.le_of_lt wider) other] at closing
        rw [Scans, List.cons_append, body_plain closing]
        exact Span.after_map_eq_ok_iff.mpr ⟨_, _, again other, rfl, rfl⟩

theorem scan_opening (hashes : Nat) (rest : Bytes) :
    scan (List.replicate hashes Ascii.hash ++ Ascii.quote :: rest) =
      (body hashes rest).after (hashes + 1) := by
  have counted : (List.replicate hashes Ascii.hash ++ Ascii.quote :: rest).takeWhile
      (· == Ascii.hash) = List.replicate hashes Ascii.hash := by
    rw [List.takeWhile_append_of_pos (by simp), List.takeWhile_cons_of_neg (by decide),
      List.append_nil]
  have front : (List.replicate hashes Ascii.hash ++ Ascii.quote :: rest).drop
      (List.replicate hashes Ascii.hash).length = Ascii.quote :: rest := List.drop_left
  rw [List.length_replicate] at front
  unfold scan
  simp only [counted, List.length_replicate, front, if_true]

theorem takeWhile_hash (text : Bytes) :
    text.takeWhile (· == Ascii.hash) =
      List.replicate (text.takeWhile (· == Ascii.hash)).length Ascii.hash := by
  apply List.eq_replicate_of_mem
  intro byte member
  exact beq_iff_eq.mp (List.all_eq_true.mp List.all_takeWhile byte member)

theorem scan_selfDelimiting : SelfDelimiting (Scans scan) := by
  intro text value width read
  have split : text.takeWhile (· == Ascii.hash) ++
      text.drop (text.takeWhile (· == Ascii.hash)).length = text :=
    List.prefix_iff_eq_append.mp (List.takeWhile_prefix _)
  have allHashes := takeWhile_hash text
  unfold Scans scan at read
  simp only at read
  generalize (text.takeWhile (· == Ascii.hash)).length = hashes at read split allHashes
  split at read
  · cases read
  · next opening rest behind =>
      split at read
      · next isQuote =>
          subst isQuote
          obtain ⟨innerWidth, readBody, rfl⟩ := Span.after_eq_ok_iff.mp read
          obtain ⟨used, rest, rfl, rfl, again⟩ := body_selfDelimiting hashes readBody
          refine ⟨List.replicate hashes Ascii.hash ++ Ascii.quote :: used, rest, ?_, ?_, ?_⟩
          · rw [← split, behind, allHashes]
            simp
          · simp
            omega
          · intro other
            rw [Scans, List.append_assoc, List.cons_append, scan_opening]
            exact Span.after_eq_ok_iff.mpr ⟨_, again other, rfl⟩
      · cases read

end RawString

namespace Gap

theorem blockComment_zero (text : Bytes) : blockComment 0 text = some 0 := by
  rw [blockComment.eq_def, if_pos rfl]

variable {depth : Nat}

theorem blockComment_opening (inside : depth ≠ 0) (rest : Bytes) :
    blockComment depth (Ascii.slash :: Ascii.star :: rest) =
      (blockComment (depth + 1) rest).map (2 + ·) := by
  rw [blockComment.eq_def, if_neg inside]
  rfl

theorem blockComment_closing (inside : depth ≠ 0) (rest : Bytes) :
    blockComment depth (Ascii.star :: Ascii.slash :: rest) =
      (blockComment (depth - 1) rest).map (2 + ·) := by
  rw [blockComment.eq_def, if_neg inside]
  rfl

theorem blockComment_plain {first second : UInt8} (inside : depth ≠ 0)
    (notOpening : ¬ (first = Ascii.slash ∧ second = Ascii.star))
    (notClosing : ¬ (first = Ascii.star ∧ second = Ascii.slash)) (rest : Bytes) :
    blockComment depth (first :: second :: rest) =
      (blockComment depth (second :: rest)).map (1 + ·) := by
  rw [blockComment.eq_def, if_neg inside]
  simp only [if_neg notOpening, if_neg notClosing]

/-- The comment inside so many open ones is closed behind so many bytes. -/
def Closes (depth : Nat) (text : Bytes) (_ : Unit) (width : Nat) : Prop :=
  blockComment depth text = some width

theorem blockComment_selfDelimiting (depth : Nat) : SelfDelimiting (Closes depth) := by
  intro text _ width read
  unfold Closes at read ⊢
  induction depth, text using blockComment.induct generalizing width with
  | case1 text =>
      rw [blockComment_zero] at read
      cases read
      exact ⟨[], text, rfl, rfl, fun other => blockComment_zero other⟩
  | case2 depth inside =>
      rw [blockComment, if_neg inside] at read
      cases read
  | case3 depth inside byte =>
      rw [blockComment, if_neg inside] at read
      cases read
  | case4 depth inside first second rest opening induction =>
      obtain ⟨rfl, rfl⟩ := opening
      rw [blockComment_opening inside] at read
      obtain ⟨later, readLater, rfl⟩ := Option.map_eq_some_iff.mp read
      obtain ⟨used, rest, rfl, rfl, again⟩ := induction readLater
      refine ⟨Ascii.slash :: Ascii.star :: used, rest, rfl, Nat.add_comm used.length 2, ?_⟩
      intro other
      simp only [List.cons_append, blockComment_opening inside, again other, Option.map_some]
  | case5 depth inside first second rest _ closing induction =>
      obtain ⟨rfl, rfl⟩ := closing
      rw [blockComment_closing inside] at read
      obtain ⟨later, readLater, rfl⟩ := Option.map_eq_some_iff.mp read
      obtain ⟨used, rest, rfl, rfl, again⟩ := induction readLater
      refine ⟨Ascii.star :: Ascii.slash :: used, rest, rfl, Nat.add_comm used.length 2, ?_⟩
      intro other
      simp only [List.cons_append, blockComment_closing inside, again other, Option.map_some]
  | case6 depth inside first second rest notOpening notClosing induction =>
      rw [blockComment_plain inside notOpening notClosing] at read
      obtain ⟨later, readLater, rfl⟩ := Option.map_eq_some_iff.mp read
      obtain ⟨used, behind, split, rfl, again⟩ := induction readLater
      cases used with
      | nil =>
          -- Inside a comment nothing is read without a byte of its own.
          have readNothing := again []
          rw [List.append_nil, blockComment, if_neg inside] at readNothing
          cases readNothing
      | cons byte used =>
          cases split
          refine ⟨first :: second :: used, behind, rfl, Nat.add_comm _ 1, ?_⟩
          intro other
          have readAgain := again other
          simp only [List.cons_append] at readAgain ⊢
          rw [blockComment_plain inside notOpening notClosing, readAgain, Option.map_some]

end Gap

end OpcodeCatalog.Source

import OpcodeCatalog.Catalog
import OpcodeCatalog.Proofs.BlamedWords
import OpcodeCatalog.Proofs.Numerals
import OpcodeCatalog.Proofs.RefusalPlaces

/-!
# Diagnostics on one line

A printed diagnostic ends its line, and what is printed around its message has no
newline.  So it is on one line exactly if its message is.  The messages of refused
sources and of lookups without an answer are, but for three texts that they show as
they are: a byte behind a backslash, the name of an entry, and the name looked up.
-/

namespace OpcodeCatalog

/-- A text without a newline. -/
def InLine (text : Bytes) : Prop :=
  Ascii.newline ∉ text

instance (text : Bytes) : Decidable (InLine text) :=
  inferInstanceAs (Decidable (Ascii.newline ∉ text))

/-- A text whose only newline is its last byte. -/
def OneLine (text : Bytes) : Prop :=
  ∃ line, text = line ++ [Ascii.newline] ∧ InLine line

theorem inLine_nil : InLine [] :=
  List.not_mem_nil

theorem inLine_append {first second : Bytes} :
    InLine (first ++ second) ↔ InLine first ∧ InLine second := by
  simp only [InLine, List.mem_append, not_or]

theorem oneLine_iff {line : Bytes} : OneLine (line ++ [Ascii.newline]) ↔ InLine line := by
  constructor
  · rintro ⟨other, same, inLine⟩
    rwa [List.append_cancel_right same]
  · intro inLine
    exact ⟨line, rfl, inLine⟩

/-! ## What is printed around a message -/

/-- A class of bytes without the newline has only texts in one line. -/
theorem inLine_of_class {class' : UInt8 → Bool} {text : Bytes}
    (excluded : class' Ascii.newline = false) (all : ∀ byte ∈ text, class' byte = true) :
    InLine text := by
  intro member
  rw [all _ member] at excluded
  cases excluded

theorem inLine_decimal (number : Nat) : InLine (decimal number) := by
  apply @inLine_of_class Ascii.isDigit _ rfl
  intro byte
  exact isDigit_of_mem_decimal

theorem inLine_decimalInt (number : Int) : InLine (decimalInt number) := by
  unfold decimalInt
  split
  · exact inLine_append.mpr ⟨(by decide : InLine ['-'.toUInt8]), inLine_decimal _⟩
  · exact inLine_decimal _

theorem inLine_opcodeText (id : UInt32) : InLine (Instruction.opcodeText id) := by
  apply inLine_append.mpr
  refine ⟨by decide, ?_⟩
  intro member
  obtain ⟨digit, isDigit, same⟩ := List.mem_map.mp member
  have small := Radix.digits_lt_base .hexadecimal id.toNat digit isDigit
  have other : ∀ digit < 16, digitByte .upper digit ≠ Ascii.newline := by decide
  exact other digit small same

/-- What stands between the place and the message. -/
def FindingKind.heading (kind : FindingKind) : Bytes :=
  kind.severity.name ++ ascii "[" ++ kind.code ++ ascii "]: "

theorem FindingKind.inLine_heading (kind : FindingKind) : InLine kind.heading := by
  cases kind <;> decide

theorem Finding.render_eq (finding : Finding) (location : Location) :
    (finding.diagnostic location).render none =
      (finding.diagnostic location).placeText none ++ finding.kind.heading ++
        finding.diagnostic.message ++ [Ascii.newline] := by
  have coded : finding.kind.code ≠ [] := by
    cases finding.kind <;> decide
  simp [Diagnostic.render, Diagnostic.codeText, diagnostic, FindingKind.diagnostic,
    FindingKind.heading, coded, ascii]

theorem Location.inLine_lineAndColumn (location : Location) :
    InLine ((ascii ":").intercalate location.lineAndColumn) := by
  unfold lineAndColumn
  split
  · split
    · rw [List.intercalate_cons_cons, List.intercalate_singleton]
      simp only [inLine_append, inLine_decimal, true_and]
      exact ⟨by decide, trivial⟩
    · rw [List.intercalate_singleton]
      exact inLine_decimal _
  · exact inLine_nil

theorem Diagnostic.inLine_placeText (diagnostic : Diagnostic) :
    InLine (diagnostic.placeText none) := by
  have place := diagnostic.location.inLine_lineAndColumn
  unfold placeText
  simp only [Location.knownPath, List.nil_append]
  split
  · exact inLine_nil
  · exact inLine_append.mpr ⟨place, by decide⟩

theorem Diagnostic.placeText_of_unknown {diagnostic : Diagnostic}
    (unknown : diagnostic.location.line = 0) : diagnostic.placeText none = [] := by
  have nothing : diagnostic.location.lineAndColumn = [] := by
    simp [Location.lineAndColumn, Location.hasLine, unknown]
  simp [placeText, Location.knownPath, nothing]

/-- A line and a column that are known stand in front of the severity. -/
theorem Diagnostic.placeText_of_counted {diagnostic : Diagnostic}
    (line : 1 ≤ diagnostic.location.line) (column : 1 ≤ diagnostic.location.column) :
    diagnostic.placeText none = decimal diagnostic.location.line.toNat ++ ascii ":" ++
      decimal diagnostic.location.column.toNat ++ ascii ": " := by
  have known : ∀ count : UInt32, 1 ≤ count → (count != 0) = true := by
    rintro count least
    apply bne_iff_ne.mpr
    rintro rfl
    exact absurd least (by decide)
  have both : diagnostic.location.lineAndColumn =
      [decimal diagnostic.location.line.toNat, decimal diagnostic.location.column.toNat] := by
    simp [Location.lineAndColumn, Location.hasLine, Location.hasColumn, known _ line,
      known _ column]
  simp [placeText, Location.knownPath, both, List.intercalate_cons_cons]

/-- A finding is printed on one line exactly if its message is in one line. -/
theorem Finding.oneLine_render_iff (finding : Finding) (location : Location) :
    OneLine ((finding.diagnostic location).render none) ↔ InLine finding.diagnostic.message := by
  have place := (finding.diagnostic location).inLine_placeText
  rw [render_eq, oneLine_iff, inLine_append, inLine_append]
  exact and_iff_right ⟨place, finding.kind.inLine_heading⟩

/-! ## What messages show of a source -/

namespace Source

/-- The text that a reason shows as it is, if it may be any text. -/
def Reason.exposed : Reason → Bytes
  | lexical (.unknownEscape byte) => [byte]
  | nameAlreadyBound name => name.name
  | _ => []

theorem inLine_of_isWord {word : Bytes} (whole : isWord word = true) : InLine word := by
  cases word with
  | nil => exact inLine_nil
  | cons first rest =>
      obtain ⟨opens, continues⟩ := Bool.and_eq_true_iff.mp whole
      apply @inLine_of_class Ascii.continuesWord _ rfl
      intro byte member
      rcases List.mem_cons.mp member with rfl | later
      · exact Bool.or_eq_true_iff.mpr (.inl opens)
      · exact List.all_eq_true.mp continues byte later

theorem inLine_of_mem_knownFields {field : Bytes} (known : field ∈ knownFields) : InLine field := by
  revert field
  decide

theorem inLine_quoteName {name : Bytes} : InLine (quoteName name) ↔ InLine name := by
  rw [quoteName, inLine_append, inLine_append]
  constructor
  · exact fun parts => parts.1.2
  · exact fun inLine => ⟨⟨by decide, inLine⟩, by decide⟩

theorem StructName.inLine_spelling (name : StructName) : InLine name.spelling := by
  cases name <;> decide

theorem IntegerType.inLine_spelling (type : IntegerType) : InLine type.spelling := by
  cases type <;> decide

theorem TokenKind.inLine_description (kind : TokenKind) : InLine kind.description := by
  cases kind with
  | mark symbol => cases symbol <;> decide
  | _ => decide

theorem Place.inLine_phrase {place : Place}
    (known : ∀ name, place = .afterField name → isWord name = true) : InLine place.phrase := by
  cases place with
  | openStruct name => cases name <;> decide
  | closeStruct name => cases name <;> decide
  | afterField name =>
      apply inLine_append.mpr
      exact ⟨by decide, inLine_quoteName.mpr (inLine_of_isWord (known name rfl))⟩
  | _ => decide

theorem Wanted.MadeOf.inLine_phrase {wanted : Wanted}
    (made : wanted.MadeOf fun word => isWord word = true) : InLine wanted.phrase := by
  cases made with
  | mark known =>
      simp only [phrase, inLine_append]
      exact ⟨⟨TokenKind.inLine_description _, by decide⟩, Place.inLine_phrase known⟩
  | integer known =>
      apply inLine_append.mpr
      exact ⟨by decide, inLine_quoteName.mpr (inLine_of_mem_knownFields known)⟩
  | string known =>
      apply inLine_append.mpr
      exact ⟨by decide, inLine_quoteName.mpr (inLine_of_mem_knownFields known)⟩
  | _ => decide

/-- A byte in quotes is in the line unless it is the newline. -/
theorem inLine_singleton {byte : UInt8} : InLine [byte] ↔ byte ≠ Ascii.newline := by
  rw [InLine, List.mem_singleton, ne_comm]

/-- Of the bytes that faults show, only the one behind a backslash may be any byte. -/
theorem Malformed.inLine_message_iff {fault : LexicalFault} {construct : Bytes}
    (malformed : Malformed fault construct) :
    InLine fault.message ↔ InLine (Reason.lexical fault).exposed := by
  cases malformed with
  | comment => exact iff_of_true (by decide) inLine_nil
  | number _ fails =>
      cases Number.flaw_of_fails fails with
      | @invalidDigit byte continues =>
          apply iff_of_true _ inLine_nil
          have other : byte ≠ Ascii.newline := by
            rintro rfl
            cases continues
          simp only [LexicalFault.message, inLine_append, inLine_singleton]
          exact ⟨⟨by decide, other⟩, by decide⟩
      | _ => exact iff_of_true (by decide) inLine_nil
  | quoted fails =>
      cases Quoted.flaw_of_fails fails with
      | unknownEscape =>
          simp only [LexicalFault.message, inLine_append]
          rw [and_iff_left (by decide), and_iff_right (by decide)]
          rfl
      | _ => exact iff_of_true (by decide) inLine_nil
  | raw _ fails =>
      cases RawString.flaw_of_fails fails <;> exact iff_of_true (by decide) inLine_nil
  | @stray byte _ stray =>
      apply iff_of_true _ inLine_nil
      have other : byte ≠ Ascii.newline := by
        rintro rfl
        cases stray.notBlank
      simp only [LexicalFault.message, inLine_append, inLine_singleton]
      exact ⟨⟨by decide, other⟩, by decide⟩

/-- All else that a refusal tells is known or a word. -/
theorem Reason.inLine_message_iff {reason : Reason}
    (made : reason.MadeOf (fun word => isWord word = true)
      fun fault => ∃ construct, Malformed fault construct) :
    InLine reason.message ↔ InLine reason.exposed := by
  cases made with
  | lexical malformed =>
      obtain ⟨construct, malformed⟩ := malformed
      exact malformed.inLine_message_iff
  | nameAlreadyBound =>
      simp only [message, inLine_append, inLine_decimal, and_true]
      rw [and_iff_left (by decide), and_iff_left (by decide), and_iff_right (by decide)]
      rfl
  | unexpected wanted =>
      apply iff_of_true _ inLine_nil
      simp only [message, inLine_append]
      exact ⟨⟨⟨by decide, wanted.inLine_phrase⟩, by decide⟩, TokenKind.inLine_description _⟩
  | wrongStruct word =>
      apply iff_of_true _ inLine_nil
      simp only [message, inLine_append, inLine_quoteName]
      exact ⟨⟨⟨by decide, StructName.inLine_spelling _⟩, by decide⟩, inLine_of_isWord word⟩
  | duplicateField word =>
      apply iff_of_true _ inLine_nil
      simp only [message, inLine_append, inLine_quoteName]
      exact ⟨by decide, inLine_of_isWord word⟩
  | missingField known =>
      apply iff_of_true _ inLine_nil
      simp only [message, inLine_append, inLine_quoteName]
      exact ⟨⟨⟨by decide, inLine_of_mem_knownFields known⟩, by decide⟩,
        StructName.inLine_spelling _⟩
  | trailingContent => exact iff_of_true (by decide) inLine_nil
  | outOfRange known =>
      apply iff_of_true _ inLine_nil
      simp only [message, inLine_append, inLine_quoteName, inLine_decimalInt]
      exact ⟨⟨⟨⟨⟨⟨by decide, trivial⟩, by decide⟩, inLine_of_mem_knownFields known⟩, by decide⟩,
        IntegerType.inLine_spelling _⟩, by decide⟩
  | unknownCodeBlock word =>
      apply iff_of_true _ inLine_nil
      simp only [message, inLine_append, inLine_quoteName]
      exact ⟨⟨⟨by decide, inLine_of_isWord word⟩, by decide⟩, by decide⟩
  | valueAlreadyNamed =>
      apply iff_of_true _ inLine_nil
      simp only [message, inLine_append, inLine_decimalInt, inLine_decimal]
      exact ⟨⟨⟨⟨by decide, trivial⟩, by decide⟩, trivial⟩, by decide⟩
  | nestedTooDeeply => exact iff_of_true (by decide) inLine_nil

theorem inLine_malformedSource_iff {file : UInt32} {source : Bytes} {refusal : Refusal}
    (refused : instructions file source = .error refusal) :
    InLine (Finding.malformedSource refusal.reason.message).diagnostic.message ↔
      InLine refusal.reason.exposed := by
  rw [Finding.message_malformedSource, inLine_append, and_iff_right (by decide)]
  exact Reason.inLine_message_iff (madeOf_of_refused refused)

end Source

/-! ## What messages show of a lookup -/

namespace Finding

theorem message_unknownInstruction (key : Bytes) :
    (unknownInstruction key).diagnostic.message = ascii "unknown instruction: " ++ key := by
  change FindingKind.unknownInstruction.message [(ascii "key", key)] = _
  rw [FindingKind.message_eq]
  exact congrArg _ (List.append_nil key)

theorem message_noAssociatedValue (name : Bytes) (slot : UInt32) :
    (noAssociatedValue name slot).diagnostic.message =
      ascii "no value associated with name '" ++ name ++ ascii "' for argument " ++
        decimal slot.toNat := by
  change FindingKind.noAssociatedValue.message
    [(ascii "name", name), (ascii "slot", decimal slot.toNat)] = _
  rw [FindingKind.message_eq]
  change ascii "no value associated with name '" ++
    (name ++ (ascii "' for argument " ++ (decimal slot.toNat ++ []))) = _
  simp only [List.append_nil, List.append_assoc]

theorem inLine_unknownInstruction_iff {key : Bytes} :
    InLine (unknownInstruction key).diagnostic.message ↔ InLine key := by
  rw [message_unknownInstruction, inLine_append, and_iff_right (by decide)]

theorem inLine_noAssociatedValue_iff {name : Bytes} {slot : UInt32} :
    InLine (noAssociatedValue name slot).diagnostic.message ↔ InLine name := by
  rw [message_noAssociatedValue, inLine_append, inLine_append, inLine_append,
    and_iff_left (inLine_decimal _), and_iff_left (by decide), and_iff_right (by decide)]

end Finding

/-- The diagnostics of refused sources and of lookups without an answer, each with the text that
it shows as it is. -/
inductive Raised : Diagnostic → Bytes → Prop where
  | source {file : UInt32} {source : Bytes} {refusal : Source.Refusal} :
      Source.instructions file source = .error refusal →
      Raised refusal.diagnostic refusal.reason.exposed
  | id {catalog : Catalog} {id : UInt32} {finding : Finding} :
      catalog.findId id = .error finding → Raised finding.diagnostic []
  | name {catalog : Catalog} {name : Bytes} {finding : Finding} :
      catalog.findName name = .error finding → Raised finding.diagnostic name
  | value {instruction : Instruction} {slot : UInt32} {name : Bytes} {finding : Finding} :
      instruction.valueOf slot name = .error finding → Raised finding.diagnostic name

/-- What is raised is the finding of an error, and its message has no newline of its own. -/
theorem Raised.exists_finding {diagnostic : Diagnostic} {exposed : Bytes}
    (raised : Raised diagnostic exposed) :
    ∃ finding location, diagnostic = Finding.diagnostic finding location ∧
      finding.kind.severity = .error ∧ (InLine finding.diagnostic.message ↔ InLine exposed) := by
  cases raised with
  | @source _ _ refusal refused =>
      exact ⟨_, refusal.location, rfl, rfl, Source.inLine_malformedSource_iff refused⟩
  | id missing =>
      unfold Catalog.findId at missing
      split at missing <;> cases missing
      exact ⟨_, {}, rfl, rfl, Finding.inLine_unknownInstruction_iff.trans
        (iff_of_true (inLine_opcodeText _) inLine_nil)⟩
  | name missing =>
      unfold Catalog.findName at missing
      split at missing <;> cases missing
      exact ⟨_, {}, rfl, rfl, Finding.inLine_unknownInstruction_iff⟩
  | value missing =>
      unfold Instruction.valueOf at missing
      split at missing <;> cases missing
      exact ⟨_, {}, rfl, rfl, Finding.inLine_noAssociatedValue_iff⟩

/-- However a source is refused and whatever is looked up in vain: what is printed without a
registry is the place, if it is known, then severity, code and message, and a newline.  The place
is known in every source whose lines and columns can be counted.  All is on one line exactly if
the text that is shown as it is has no newline. -/
theorem Raised.printed_on_one_line_iff {diagnostic : Diagnostic} {exposed : Bytes}
    (raised : Raised diagnostic exposed) :
    diagnostic.render none = diagnostic.placeText none ++ ascii "error[" ++ diagnostic.code ++
        ascii "]: " ++ diagnostic.message ++ [Ascii.newline] ∧
      (diagnostic.location.line = 0 → diagnostic.placeText none = []) ∧
      (1 ≤ diagnostic.location.line → 1 ≤ diagnostic.location.column →
        diagnostic.placeText none = decimal diagnostic.location.line.toNat ++ ascii ":" ++
          decimal diagnostic.location.column.toNat ++ ascii ": ") ∧
      (∀ (file : UInt32) (source : Bytes) (refusal : Source.Refusal),
        source.length < 2 ^ 32 - 1 → Source.instructions file source = .error refusal →
          diagnostic = refusal.diagnostic →
            1 ≤ diagnostic.location.line ∧ 1 ≤ diagnostic.location.column) ∧
      (OneLine (diagnostic.render none) ↔ InLine exposed) := by
  obtain ⟨finding, location, rfl, error, inLine⟩ := raised.exists_finding
  refine ⟨?_, ?_, Diagnostic.placeText_of_counted, ?_, ?_⟩
  · have heading : ascii "error[" = Severity.error.name ++ ascii "[" := by decide
    rw [finding.render_eq, FindingKind.heading, error, heading]
    simp only [List.append_assoc]
    rfl
  · exact Diagnostic.placeText_of_unknown
  · intro file source refusal short refused same
    rw [same]
    exact (Source.counted_of_mem_places short (Source.TokenStream.location_mem_places refused)).2
  · rw [finding.oneLine_render_iff, inLine]

/-- A stray byte takes one line, at its line and column. -/
theorem Raised.printed_on_one_line_iff_of_strayByte :
    let refusal : Source.Refusal := ⟨.lexical (.unexpectedByte '@'.toUInt8), ⟨7, 2, 1⟩⟩
    Raised refusal.diagnostic [] ∧
      refusal.diagnostic.placeText none = ascii "2:1: " ∧
        OneLine (refusal.diagnostic.render none) := by
  intro refusal
  have refused : Source.instructions 7 (ascii "(functions:[\n@") = .error refusal :=
    Source.refusal?_eq_some_iff.mp (by decide +kernel)
  have raised : Raised refusal.diagnostic [] := .source refused
  obtain ⟨_, _, place, counted, line⟩ := printed_on_one_line_iff raised
  obtain ⟨lineKnown, columnKnown⟩ := counted 7 _ refusal (by decide) refused rfl
  refine ⟨raised, ?_, line.mpr inLine_nil⟩
  rw [place lineKnown columnKnown]
  decide +kernel

/-- A backslash at the end of a line, an entry whose name is bound already, and a name that is
looked up: each shows its newline. -/
theorem Raised.printed_on_two_lines :
    (∃ refusal, Source.instructions 0 (ascii "\"\\\n\"") = .error refusal ∧
        ¬ OneLine (refusal.diagnostic.render none)) ∧
      (∃ refusal, Source.instructions 0
          (ascii "(functions:[(namedValues:\x7b(0,1):(0,\"a\nb\"),(0,2):(0,\"a\nb\")\x7d)])") =
            .error refusal ∧ ¬ OneLine (refusal.diagnostic.render none)) ∧
      (∃ finding, (⟨ascii "g", []⟩ : Catalog).findName (ascii "a\nb") = .error finding ∧
        ¬ OneLine (finding.diagnostic.render none)) ∧
      ∃ finding, (⟨1, 4, [], [], .noBlock, .empty⟩ : Instruction).valueOf 0 (ascii "a\nb") =
          .error finding ∧ ¬ OneLine (finding.diagnostic.render none) := by
  have broken : ¬ InLine (ascii "a\nb") := by decide
  have shown : ∀ {diagnostic : Diagnostic} {exposed : Bytes}, Raised diagnostic exposed →
      ¬ InLine exposed → ¬ OneLine (diagnostic.render none) := by
    intro diagnostic exposed raised broken
    obtain ⟨finding, location, rfl, _, inLine⟩ := raised.exists_finding
    rwa [finding.oneLine_render_iff, inLine]
  have escape : Source.instructions 0 (ascii "\"\\\n\"") =
      .error ⟨.lexical (.unknownEscape Ascii.newline), ⟨0, 1, 1⟩⟩ :=
    Source.refusal?_eq_some_iff.mp (by decide +kernel)
  have name : Source.instructions 0
      (ascii "(functions:[(namedValues:\x7b(0,1):(0,\"a\nb\"),(0,2):(0,\"a\nb\")\x7d)])") =
        .error ⟨.nameAlreadyBound ⟨0, ascii "a\nb"⟩, ⟨0, 2, 5⟩⟩ :=
    Source.refusal?_eq_some_iff.mp (by decide +kernel)
  have lookup : (⟨ascii "g", []⟩ : Catalog).findName (ascii "a\nb") =
      .error (.unknownInstruction (ascii "a\nb")) := rfl
  have value : (⟨1, 4, [], [], .noBlock, .empty⟩ : Instruction).valueOf 0 (ascii "a\nb") =
      .error (.noAssociatedValue (ascii "a\nb") 0) := rfl
  exact ⟨⟨_, escape, shown (.source escape) (by decide)⟩,
    ⟨_, name, shown (.source name) broken⟩, ⟨_, lookup, shown (.name lookup) broken⟩,
    ⟨_, value, shown (.value value) broken⟩⟩

end OpcodeCatalog

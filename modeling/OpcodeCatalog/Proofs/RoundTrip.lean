import OpcodeCatalog.Proofs.CatalogAcceptance
import OpcodeCatalog.Proofs.WrittenTexts
import OpcodeCatalog.Source.Writer

/-!
# Reading what was written

Each part of the writer writes a text that shows its part of the grammar, in
either style.  A written catalog is therefore the text of its instructions, and
reading it gives them back.
-/

namespace OpcodeCatalog.Source

open Grammar

theorem Mark.delimits_byte (mark : Mark) : delimits mark.byte = true := by
  cases mark <;> decide

theorem Grammar.Listing.map {text : β → List Lexeme → Prop} {change : α → β} {things : List α}
    {shown : List Lexeme} (listing : Listing (fun thing => text (change thing)) things shown) :
    Listing text (things.map change) shown := by
  induction listing with
  | nil => exact .nil
  | last text => exact .last text
  | cons text _ induction => exact .cons text induction

theorem inRange_unsigned (number : UInt32) : Number.InRange (number.toNat : Int) := by
  have bound := number.toNat_lt
  unfold Number.InRange
  omega

theorem inRange_signed (number : Int32) : Number.InRange number.toInt := by
  have least := number.le_toInt
  have most := number.toInt_lt
  unfold Number.InRange
  omega

theorem shows_newline : Shows [Ascii.newline] [] :=
  shows_blank rfl

namespace Style

theorem shows_indentation (depth : Nat) : Shows (indentation depth) [] := by
  apply shows_blanks
  intro byte member
  rw [List.eq_of_mem_replicate member]
  rfl

theorem shows_comma (style : Style) : Shows style.comma [.mark .comma] := by
  cases style with
  | indented => exact (shows_mark .comma).then' (shows_blank rfl)
  | compact => exact shows_mark .comma

theorem exists_comma (style : Style) : ∃ later, style.comma = Mark.comma.byte :: later := by
  cases style
  · exact ⟨ascii " ", rfl⟩
  · exact ⟨[], rfl⟩

theorem exists_colon (style : Style) : ∃ later, style.colon = Mark.colon.byte :: later := by
  cases style
  · exact ⟨ascii " ", rfl⟩
  · exact ⟨[], rfl⟩

theorem shows_colon (style : Style) : Shows style.colon [.mark .colon] := by
  cases style with
  | indented => exact (shows_mark .colon).then' (shows_blank rfl)
  | compact => exact shows_mark .colon

section Bracketed

variable {write : α → Bytes} {text : α → List Lexeme → Prop} {items : List α}

/-- Each item on a line of its own, with a comma behind it. -/
theorem shows_lines (depth : Nat)
    (written : ∀ item ∈ items, ∃ shown, text item shown ∧ Shows (write item) shown Delimited) :
    ∃ inner, Listing text items inner ∧
      Shows ((items.map write).map (itemLine depth)).flatten inner := by
  induction items with
  | nil => exact ⟨[], .nil, .nil⟩
  | cons item items induction =>
      obtain ⟨shown, itemText, itemShows⟩ := written item List.mem_cons_self
      obtain ⟨inner, listing, innerShows⟩ := induction fun later member =>
        written later (List.mem_cons_of_mem item member)
      refine ⟨shown ++ .mark .comma :: inner, .cons itemText listing, ?_⟩
      have ending : Shows [','.toUInt8, Ascii.newline] [.mark .comma] :=
        (shows_mark .comma).then' shows_newline
      have line : Shows (itemLine depth (write item)) (shown ++ [.mark .comma]) :=
        (shows_indentation depth).then' (itemShows.endedBy ending rfl)
      have all := line.then' innerShows
      simpa using all

/-- The items with commas between them. -/
theorem shows_intercalate (some : items ≠ [])
    (written : ∀ item ∈ items, ∃ shown, text item shown ∧ Shows (write item) shown Delimited) :
    ∃ inner, Listing text items inner ∧
      Shows ((ascii ",").intercalate (items.map write)) inner Delimited := by
  induction items with
  | nil => exact (some rfl).elim
  | cons item items induction =>
      obtain ⟨shown, itemText, itemShows⟩ := written item List.mem_cons_self
      cases items with
      | nil =>
          refine ⟨shown, .last itemText, ?_⟩
          simpa [List.intercalate] using itemShows
      | cons second later =>
          obtain ⟨inner, listing, innerShows⟩ := induction (List.cons_ne_nil _ _)
            fun other member => written other (List.mem_cons_of_mem item member)
          refine ⟨shown ++ .mark .comma :: inner, .cons itemText listing, ?_⟩
          have ended : Shows (write item ++ ascii ",") (shown ++ [.mark .comma]) :=
            itemShows.endedBy (shows_mark .comma) rfl
          have all := ended.then' innerShows
          simpa [List.intercalate] using all

theorem shows_bracketed (style : Style) (depth : Nat) {opening : Bytes}
    {openingShown : List Lexeme} (opens : Shows opening openingShown) (closing : Mark)
    (written : ∀ item ∈ items, ∃ shown, text item shown ∧ Shows (write item) shown Delimited) :
    ∃ inner, Listing text items inner ∧
      Shows (style.bracketed depth opening [closing.byte] (items.map write))
        (openingShown ++ (inner ++ [.mark closing])) := by
  unfold bracketed
  by_cases empty : items = []
  · subst empty
    exact ⟨[], .nil, opens.then' (shows_mark closing)⟩
  · rw [if_neg (List.map_eq_nil_iff.not.mpr empty)]
    cases style with
    | indented =>
        obtain ⟨inner, listing, lines⟩ := shows_lines (depth + 1) written
        refine ⟨inner, listing, ?_⟩
        have firstLine := opens.then' shows_newline
        have lastLine := (shows_indentation depth).then' (shows_mark closing)
        have all := firstLine.then' (lines.then' lastLine)
        simpa using all
    | compact =>
        obtain ⟨inner, listing, commas⟩ := shows_intercalate empty written
        refine ⟨inner, listing, ?_⟩
        exact opens.then' (commas.endedBy (shows_mark closing) closing.delimits_byte)

end Bracketed

/-- A slot and what is bound in it, between brackets. -/
theorem shows_slotPair (style : Style) {slot : UInt32} {bound : Bytes} {boundShown : Lexeme}
    (boundShows : Shows bound [boundShown] Delimited) :
    ∃ shown, SlotText slot boundShown shown ∧ Shows (style.slotPair slot bound) shown := by
  refine ⟨_, .plain, ?_⟩
  have opened : Shows (ascii "(") [.mark .leftParen] := shows_mark .leftParen
  have slotted : Shows (decimal slot.toNat ++ style.comma)
      [.integer slot.toNat, .mark .comma] := by
    obtain ⟨later, comma⟩ := style.exists_comma
    have commaShows := shows_comma style
    rw [comma] at commaShows ⊢
    exact (shows_decimal (inRange_unsigned slot)).endedBy commaShows rfl
  have closed : Shows (bound ++ ascii ")") [boundShown, .mark .rightParen] :=
    boundShows.endedBy (shows_mark .rightParen) rfl
  have pair := opened.then' (slotted.then' closed)
  simpa [slotPair] using pair

theorem shows_namedValue (style : Style) (entry : NamedValue) :
    ∃ shown, NamedValueText entry shown ∧ Shows (style.namedValue entry) shown := by
  obtain ⟨value, valueText, valueShows⟩ :=
    style.shows_slotPair (shows_decimalInt (inRange_signed entry.value.value))
  obtain ⟨name, nameText, nameShows⟩ :=
    style.shows_slotPair (shows_quoted entry.name.name).before
  refine ⟨_, .pair valueText nameText, ?_⟩
  have pair := valueShows.then' ((shows_colon style).then' nameShows)
  simpa [namedValue] using pair

theorem shows_namedValues (style : Style) (depth : Nat) (values : NamedValues) :
    ∃ inner, Listing NamedValueText values.entries inner ∧
      Shows (style.namedValues depth values)
        (.mark .leftBrace :: (inner ++ [.mark .rightBrace])) := by
  apply style.shows_bracketed depth (shows_mark .leftBrace) .rightBrace
  intro entry _
  obtain ⟨shown, text, shows'⟩ := shows_namedValue style entry
  exact ⟨shown, text, shows'.before⟩

end Style

/-- What is declared in a field of an instruction. -/
def declaration (instruction : Instruction) : FunctionField → FieldDeclaration
  | .id => .id instruction.id
  | .size => .size instruction.size
  | .args => .args instruction.descriptor
  | .name => .name instruction.name
  | .codeBlock => .codeBlock instruction.block
  | .namedValues => .namedValues instruction.values.entries

theorem declares_declarations {instruction : Instruction}
    (holds : instruction.values.Holds instruction.values.entries) :
    Declares (FunctionField.all.map (declaration instruction)) instruction := by
  have declared : ∀ field, declaration instruction field ∈
      FunctionField.all.map (declaration instruction) := by
    intro field
    apply List.mem_map_of_mem
    cases field <;> decide
  exact
    { once := List.Perm.refl _
      id := declared .id
      size := declared .size
      args := declared .args
      name := declared .name
      codeBlock := declared .codeBlock
      namedValues := ⟨_, declared .namedValues, holds⟩ }

namespace Style

theorem shows_functionFieldValue (style : Style) (depth : Nat) (instruction : Instruction)
    (field : FunctionField) :
    ∃ shown, ValueText (declaration instruction field) shown ∧
      Shows (style.functionFieldValue depth instruction field) shown Delimited := by
  cases field with
  | id =>
      refine ⟨_, .id _, ?_⟩
      cases style with
      | indented => exact shows_hexadecimal (inRange_unsigned instruction.id)
      | compact => exact shows_decimal (inRange_unsigned instruction.id)
  | size => exact ⟨_, .size _, shows_decimal (inRange_unsigned instruction.size)⟩
  | args => exact ⟨_, .args _, (shows_quoted instruction.descriptor).before⟩
  | name => exact ⟨_, .name _, (shows_quoted instruction.name).before⟩
  | codeBlock =>
      refine ⟨_, .codeBlock _, ?_⟩
      have whole : isWord instruction.block.spelling = true := by
        cases instruction.block <;> decide
      exact shows_word whole
  | namedValues =>
      obtain ⟨inner, listing, shows'⟩ := shows_namedValues style (depth + 1) instruction.values
      exact ⟨_, .namedValues listing, shows'.before⟩

theorem shows_field (style : Style) {name value : Bytes} {shown : List Lexeme}
    (whole : isWord name = true) (valueShows : Shows value shown Delimited) :
    Shows (style.field name value) (.identifier name :: .mark .colon :: shown) Delimited := by
  obtain ⟨later, colon⟩ := style.exists_colon
  have colonShows := shows_colon style
  unfold field
  rw [colon] at colonShows ⊢
  have named := (shows_word whole).endedBy colonShows rfl
  have all := named.then' valueShows
  simpa using all

theorem shows_function (style : Style) (depth : Nat) {instruction : Instruction}
    (holds : instruction.values.Holds instruction.values.entries) :
    ∃ shown, FunctionText instruction shown ∧ Shows (style.function depth instruction) shown := by
  have opens : Shows (StructName.function.spelling ++ ascii "(")
      [.identifier StructName.function.spelling, .mark .leftParen] :=
    (shows_word rfl).endedBy (shows_mark .leftParen) rfl
  have written : ∀ field ∈ FunctionField.all, ∃ shown,
      FieldText (declaration instruction field) shown ∧
        Shows (style.field field.spelling (style.functionFieldValue depth instruction field))
          shown Delimited := by
    intro field _
    obtain ⟨shown, text, shows'⟩ := shows_functionFieldValue style depth instruction field
    have whole : isWord field.spelling = true := by
      cases field <;> decide
    refine ⟨_, .named (.known ?_) text, shows_field style whole shows'⟩
    cases field <;> rfl
  obtain ⟨inner, listing, shows'⟩ := style.shows_bracketed depth opens .rightParen written
  refine ⟨_, .declared listing.map (declares_declarations holds) .named, shows'⟩

end Style

theorem shows_writeInstructions (style : Style) {instructions : List Instruction}
    (holds : ∀ instruction ∈ instructions,
      instruction.values.Holds instruction.values.entries) :
    ∃ shown, CatalogText instructions shown ∧
      Shows (writeInstructions style instructions) shown := by
  have opens : Shows (StructName.catalog.spelling ++ ascii "(")
      [.identifier StructName.catalog.spelling, .mark .leftParen] :=
    (shows_word rfl).endedBy (shows_mark .leftParen) rfl
  have functions : ∃ inner, Listing FunctionText instructions inner ∧
      Shows (style.functions 1 instructions)
        (.mark .leftBracket :: (inner ++ [.mark .rightBracket])) := by
    apply style.shows_bracketed 1 (shows_mark .leftBracket) .rightBracket
    intro instruction member
    obtain ⟨shown, text, shows'⟩ := style.shows_function 2 (holds instruction member)
    exact ⟨shown, text, shows'.before⟩
  obtain ⟨inner, listing, functionsShow⟩ := functions
  have written : ∀ item ∈ [style.functions 1 instructions], ∃ shown,
      CatalogFieldText (.functions instructions) shown ∧
        Shows (style.field functionsField item) shown Delimited := by
    intro item member
    rw [List.mem_singleton.mp member]
    exact ⟨_, .functions listing, style.shows_field rfl functionsShow.before⟩
  obtain ⟨body, fields, shows'⟩ := style.shows_bracketed 0 opens .rightParen written
  refine ⟨_, .declared fields.map rfl .named, ?_⟩
  cases style with
  | indented =>
      have ended := shows'.then' shows_newline
      rw [List.append_nil] at ended
      exact ended
  | compact =>
      change Shows (_ ++ []) _
      rw [List.append_nil]
      exact shows'

/-- Reading a written catalog gives its instructions back. -/
theorem instructions_written (file : UInt32) (style : Style) {instructions : List Instruction}
    (holds : ∀ instruction ∈ instructions,
      instruction.values.Holds instruction.values.entries) :
    Source.instructions file (writeInstructions style instructions) = .ok instructions := by
  obtain ⟨shown, text, shows'⟩ := shows_writeInstructions style holds
  obtain ⟨lexemes, fault⟩ := shows'.lexed_eq trivial
  apply instructions_eq_ok_iff_lexed.mpr
  rw [lexemes]
  exact ⟨fault, text⟩

/-- Whatever was inserted into the named values of its instructions, a written catalog is
read as these instructions, and writing them again gives the same text. -/
theorem reading_undoes_writing (file : UInt32) (style : Style) (instructions : List Instruction)
    (built : ∀ instruction ∈ instructions, ∃ insertions,
      instruction.values = NamedValues.afterRun insertions) :
    Source.instructions file (writeInstructions style instructions) = .ok instructions ∧
      (Source.instructions file (writeInstructions style instructions)).map
        (writeInstructions style) = .ok (writeInstructions style instructions) := by
  have holds : ∀ instruction ∈ instructions,
      instruction.values.Holds instruction.values.entries := by
    intro instruction member
    obtain ⟨insertions, same⟩ := built instruction member
    rw [same, NamedValues.afterRun_eq]
    exact (NamedValues.inverse_empty.insertAll _).holds
  have read := instructions_written file style holds
  refine ⟨read, ?_⟩
  rw [read]
  rfl

/-- An instruction that names a value of one slot in another, next to an entry that is refused
because its value is named by then. -/
theorem reading_undoes_writing_of_crossSlot :
    let values := NamedValues.afterRun
      [.across 0 (-3) 1 (ascii "say \"no\""), .within 0 7 [0, 255], .within 0 (-3) (ascii "no")]
    let instruction : Instruction := ⟨4294967295, 12, ascii "i\n16s", [], .beginsJumpEntry, values⟩
    Source.instructions 3 (writeInstructions .indented [instruction]) = .ok [instruction] ∧
      (Source.instructions 3 (writeInstructions .indented [instruction])).map
        (writeInstructions .indented) = .ok (writeInstructions .indented [instruction]) := by
  intro values instruction
  apply reading_undoes_writing
  intro other member
  rw [List.mem_singleton.mp member]
  exact ⟨_, rfl⟩

end OpcodeCatalog.Source

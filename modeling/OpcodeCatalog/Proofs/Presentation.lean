import OpcodeCatalog.Proofs.ItemTexts
import OpcodeCatalog.Source.Writer
import Mathlib.Data.List.Perm.Basic
import Mathlib.Logic.Relation

/-!
# Presentation

What a catalog declares does not depend on how it is presented: fields may stand
in another order, entries of named values too, and fields that no structure knows
may stand among the others.  A change of presentation is told by the items of the
lexemes alone, whatever they mean, and leaves the declared instructions as they
are.
-/

namespace OpcodeCatalog.Source.Grammar

/-- Lexemes that are used up where a value is skipped. -/
def Skippable (value : List Lexeme) : Prop :=
  ∃ used rest, used.map Token.lexeme = value ∧
    Reader.skipValue.run (TokenStream.behind used rest) = .ok ((), rest)

/-- A change of the fields of a structure: another order, one more field that the structure
does not know, or a change within one field. -/
inductive FieldsChange (known : Bytes → Prop) (within : List Lexeme → List Lexeme → Prop) :
    List (List Lexeme) → List (List Lexeme) → Prop where
  | reordered {fields fields' : List (List Lexeme)} :
      fields.Perm fields' →
      FieldsChange known within fields fields'
  | inserted {before after : List (List Lexeme)} {name : Bytes} {value : List Lexeme} :
      ¬ known name →
      Skippable value →
      FieldsChange known within (before ++ after) (before ++ fieldLexemes name value :: after)
  | within {before after : List (List Lexeme)} {field field' : List Lexeme} :
      within field field' →
      FieldsChange known within (before ++ field :: after) (before ++ field' :: after)

/-- A change of a structure is one of its fields.  Its name and a last comma may come or go. -/
inductive StructChange (name : StructName) (known : Bytes → Prop)
    (within : List Lexeme → List Lexeme → Prop) : List Lexeme → List Lexeme → Prop where
  | fields {fields fields' : List (List Lexeme)} {body body' shown shown' : List Lexeme} :
      Itemized fields body →
      Itemized fields' body' →
      FieldsChange known within fields fields' →
      StructText name body shown →
      StructText name body' shown' →
      StructChange name known within shown shown'

/-- A change of a field of a function: its named values in another order. -/
inductive EntriesChange : List Lexeme → List Lexeme → Prop where
  | reordered {entries entries' : List (List Lexeme)} {inner inner' : List Lexeme} :
      Itemized entries inner →
      Itemized entries' inner' →
      entries.Perm entries' →
      EntriesChange
        (fieldLexemes FunctionField.namedValues.spelling
          (.mark .leftBrace :: (inner ++ [.mark .rightBrace])))
        (fieldLexemes FunctionField.namedValues.spelling
          (.mark .leftBrace :: (inner' ++ [.mark .rightBrace])))

/-- A change of a function, which knows six fields. -/
def FunctionChange : List Lexeme → List Lexeme → Prop :=
  StructChange .function (fun name => ∃ field : FunctionField, field.spelling = name)
    EntriesChange

/-- A change of a field of a catalog: one of its functions changes. -/
inductive FunctionsChange : List Lexeme → List Lexeme → Prop where
  | function {before after : List (List Lexeme)} {function function' inner inner' : List Lexeme} :
      Itemized (before ++ function :: after) inner →
      Itemized (before ++ function' :: after) inner' →
      FunctionChange function function' →
      FunctionsChange
        (fieldLexemes functionsField (.mark .leftBracket :: (inner ++ [.mark .rightBracket])))
        (fieldLexemes functionsField (.mark .leftBracket :: (inner' ++ [.mark .rightBracket])))

/-- A change of a catalog, which knows one field. -/
def CatalogChange : List Lexeme → List Lexeme → Prop :=
  StructChange .catalog (· = functionsField) FunctionsChange

/-- Any number of changes of a catalog. -/
def Rearranged : List Lexeme → List Lexeme → Prop :=
  Relation.ReflTransGen CatalogChange

/-! ## Fields and what they mean -/

theorem Skippable.skipped {value : List Lexeme} (skippable : Skippable value) :
    SkippedValue Reader.maxDepth value := by
  obtain ⟨used, rest, rfl, read⟩ := skippable
  obtain ⟨used', split, skipped⟩ := Reader.reads_skipValue.sound read
  have same : used = used' := List.append_cancel_right (congrArg TokenStream.tokens split)
  rwa [same]

theorem Skippable.of_alone {value : List Lexeme}
    (read : Reader.skipValue.run ⟨value.map fun lexeme => ⟨lexeme, {}⟩, ⟨none, {}⟩⟩ =
      .ok ((), ⟨[], ⟨none, {}⟩⟩)) : Skippable value := by
  refine ⟨value.map fun lexeme => ⟨lexeme, {}⟩, ⟨[], ⟨none, {}⟩⟩, by simp [Function.comp_def], ?_⟩
  rwa [TokenStream.behind, List.append_nil]

theorem Skippable.item {value : List Lexeme} (skippable : Skippable value) : ItemText value :=
  ⟨_, .single skippable.skipped⟩

theorem Skippable.field {value : List Lexeme} (skippable : Skippable value) (name : Bytes) :
    ItemText (fieldLexemes name value) :=
  ⟨_, skippedItem_field name skippable.skipped⟩

section Fields

variable {text : τ → List Lexeme → Prop} {things : List τ} {items items' : List (List Lexeme)}

theorem exists_reordered (texts : List.Forall₂ text things items) (perm : items.Perm items') :
    ∃ things', things.Perm things' ∧ List.Forall₂ text things' items' := by
  have both : Relation.Comp (List.Forall₂ text) List.Perm things items' := ⟨items, texts, perm⟩
  rwa [List.forall₂_comp_perm_eq_perm_comp_forall₂] at both

theorem forall₂_replace {before after : List (List Lexeme)} {item item' : List Lexeme}
    (texts : List.Forall₂ text things (before ++ item :: after))
    (same : ∀ thing, text thing item → text thing item') :
    List.Forall₂ text things (before ++ item' :: after) := by
  induction before generalizing things with
  | nil =>
      cases texts with
      | cons shows texts => exact .cons (same _ shows) texts
  | cons first before induction =>
      cases texts with
      | cons shows texts => exact .cons shows (induction texts)

/-- What things mean together, as far as changes of their texts leave it alone. -/
structure Steady (text : τ → List Lexeme → Prop) (meaning : List τ → Prop)
    (known : Bytes → Prop) (within : List Lexeme → List Lexeme → Prop) : Prop where
  areItems : ∀ thing shown, text thing shown → ItemText shown
  reordered : ∀ {things things'}, things.Perm things' → meaning things → meaning things'
  inserted : ∀ {name value}, ¬ known name → SkippedValue Reader.maxDepth value →
    ∃ thing, text thing (fieldLexemes name value) ∧
      ∀ things, meaning things → meaning (thing :: things)
  within : ∀ {thing field field'}, within field field' → text thing field →
    ∃ thing', text thing' field' ∧
      ∀ things, meaning (thing :: things) → meaning (thing' :: things)

variable {meaning : List τ → Prop} {known : Bytes → Prop}
  {within : List Lexeme → List Lexeme → Prop}

/-- The fields that a change leaves mean the same.  Since their order says nothing, the field
that changes may be taken to be the first. -/
theorem Steady.follows (steady : Steady text meaning known within)
    (change : FieldsChange known within items items') (texts : List.Forall₂ text things items)
    (means : meaning things) :
    ∃ things', List.Forall₂ text things' items' ∧ meaning things' := by
  have atFront : ∀ {thing : τ} {others : List τ} {field : List Lexeme}
      {before after : List (List Lexeme)}, text thing field →
      List.Forall₂ text others (before ++ after) → meaning (thing :: others) →
      ∃ things', List.Forall₂ text things' (before ++ field :: after) ∧ meaning things' := by
    intro thing others field before after shows texts means
    obtain ⟨things', perm, texts'⟩ :=
      exists_reordered (.cons shows texts) (List.perm_middle).symm
    exact ⟨things', texts', steady.reordered perm means⟩
  cases change with
  | reordered perm =>
      obtain ⟨things', perm', texts'⟩ := exists_reordered texts perm
      exact ⟨things', texts', steady.reordered perm' means⟩
  | inserted unknown skippable =>
      obtain ⟨thing, shows, means'⟩ := steady.inserted unknown skippable.skipped
      exact atFront shows texts (means' _ means)
  | within changed =>
      obtain ⟨front, perm, texts⟩ := exists_reordered texts List.perm_middle
      cases texts with
      | cons shows texts =>
          obtain ⟨thing', shows', means'⟩ := steady.within changed shows
          exact atFront shows' texts (means' _ (steady.reordered perm means))

/-- The fields in a structure are the same whether its name is written or not. -/
theorem StructText.unique {name : StructName} {fields fields' shown : List Lexeme}
    (struct : StructText name fields shown) (struct' : StructText name fields' shown) :
    fields = fields' := by
  obtain ⟨_, rfl, opened⟩ := Reader.structText_iff.mp struct
  obtain ⟨_, same, opened'⟩ := Reader.structText_iff.mp struct'
  rcases opened with rfl | rfl
  · rcases opened' with rfl | rfl
    · simpa using same
    · simp at same
  · rcases opened' with rfl | rfl
    · simp at same
    · simpa using same

/-- A structure after a change has fields that mean the same. -/
theorem StructChange.follows {name : StructName} {body shown shown' : List Lexeme}
    (change : StructChange name known within shown shown')
    (steady : Steady text meaning known within) (struct : StructText name body shown)
    (listed : Listing text things body) (means : meaning things) :
    ∃ things' body', StructText name body' shown' ∧ Listing text things' body' ∧
      meaning things' := by
  cases change with
  | fields itemized itemized' changed struct₀ struct' =>
      obtain rfl := struct₀.unique struct
      have texts := itemized.texts steady.areItems listed
      obtain ⟨things', texts', means'⟩ := steady.follows changed texts means
      exact ⟨things', _, struct', itemized'.listing texts', means'⟩

end Fields

/-! ## Functions -/

theorem Declares.perm {fields fields' : List FieldDeclaration} {instruction : Instruction}
    (perm : fields.Perm fields') (declares : Declares fields instruction) :
    Declares fields' instruction where
  once := (perm.symm.filterMap _).trans declares.once
  id := perm.subset declares.id
  size := perm.subset declares.size
  args := perm.subset declares.args
  name := perm.subset declares.name
  codeBlock := perm.subset declares.codeBlock
  namedValues := by
    obtain ⟨entries, member, holds⟩ := declares.namedValues
    exact ⟨entries, perm.subset member, holds⟩

theorem Declares.other {fields : List FieldDeclaration} {instruction : Instruction}
    (declares : Declares fields instruction) (name : Bytes) :
    Declares (.other name :: fields) instruction where
  once := declares.once
  id := .tail _ declares.id
  size := .tail _ declares.size
  args := .tail _ declares.args
  name := .tail _ declares.name
  codeBlock := .tail _ declares.codeBlock
  namedValues := by
    obtain ⟨entries, member, holds⟩ := declares.namedValues
    exact ⟨entries, .tail _ member, holds⟩

theorem Declares.reorder {fields : List FieldDeclaration} {instruction : Instruction}
    {entries entries' : List NamedValue}
    (declares : Declares (.namedValues entries :: fields) instruction)
    (perm : entries.Perm entries') : Declares (.namedValues entries' :: fields) instruction where
  once := declares.once
  id := by simpa using declares.id
  size := by simpa using declares.size
  args := by simpa using declares.args
  name := by simpa using declares.name
  codeBlock := by simpa using declares.codeBlock
  namedValues := by
    obtain ⟨held, member, holds⟩ := declares.namedValues
    rcases List.mem_cons.mp member with same | later
    · cases same
      exact ⟨entries', .head _, holds.perm perm⟩
    · exact ⟨held, .tail _ later, holds⟩

/-- Another order of entries shows the same entries in that order. -/
theorem EntriesChange.follows {declaration : FieldDeclaration} {field field' : List Lexeme}
    (change : EntriesChange field field') (text : FieldText declaration field) :
    ∃ entries entries', declaration = .namedValues entries ∧ entries.Perm entries' ∧
      FieldText (.namedValues entries') field' := by
  cases change with
  | @reordered items items' inner inner' itemized itemized' perm =>
      -- The value is named, since its text cannot be taken apart while it is an append.
      generalize front : Lexeme.mark .leftBrace :: (inner ++ [.mark .rightBrace]) = value at text
      cases text with
      | named named shows =>
          have known : declaration.field? = some .namedValues := by
            rw [Reader.fieldNamed_iff, Reader.field_ofSpelling?_eq_some_iff.mpr rfl] at named
            exact named
          cases shows with
          | @namedValues entries shown listed =>
              obtain rfl : inner = shown := by simpa using front
              have texts := itemized.texts (fun _ _ text => ⟨_, namedValueText_skipped text⟩) listed
              obtain ⟨entries', perm', texts'⟩ := exists_reordered texts perm
              exact ⟨entries, entries', rfl, perm',
                .named (.known rfl) (.namedValues (itemized'.listing texts'))⟩
          | _ => cases known

theorem steady_function (instruction : Instruction) :
    Steady FieldText (Declares · instruction)
      (fun name => ∃ field : FunctionField, field.spelling = name) EntriesChange where
  areItems := fun _ _ text => ⟨_, fieldText_skipped text⟩
  reordered := fun perm declares => declares.perm perm
  inserted := by
    intro name value unknown skipped
    have named : FieldNamed (.other name) name := .other fun field same => unknown ⟨field, same⟩
    exact ⟨.other name, .named named (.other skipped), fun _ declares => declares.other name⟩
  within := by
    intro declaration field field' change text
    obtain ⟨entries, entries', rfl, perm, text'⟩ := change.follows text
    exact ⟨_, text', fun _ declares => declares.reorder perm⟩

/-- A function declares the same instruction after a change. -/
theorem FunctionText.changed {instruction : Instruction} {shown shown' : List Lexeme}
    (text : FunctionText instruction shown) (change : FunctionChange shown shown') :
    FunctionText instruction shown' := by
  cases text with
  | declared listed declares struct =>
      obtain ⟨fields, body, struct', listed', declares'⟩ :=
        change.follows (steady_function instruction) struct listed declares
      exact .declared listed' declares' struct'

/-! ## Catalogs -/

theorem FunctionsChange.follows {field : CatalogField} {shown shown' : List Lexeme}
    (change : FunctionsChange shown shown') (text : CatalogFieldText field shown) :
    CatalogFieldText field shown' := by
  cases change with
  | @function _ _ _ _ inner inner' itemized itemized' change =>
      generalize front : Lexeme.mark .leftBracket :: (inner ++ [.mark .rightBracket]) = value
        at text
      generalize named : functionsField = name at text
      cases text with
      | @functions instructions shown listed =>
          obtain rfl : inner = shown := by simpa using front
          have texts := itemized.texts
            (fun _ _ text => ⟨_, .single (functionText_skipped text)⟩) listed
          have texts' := forall₂_replace texts fun _ text => text.changed change
          exact .functions (itemized'.listing texts')
      | other unlike _ => exact (unlike named.symm).elim

theorem steady_catalog (instructions : List Instruction) :
    Steady CatalogFieldText (fun fields => fields.filterMap CatalogField.list? = [instructions])
      (· = functionsField) FunctionsChange where
  areItems := fun _ _ text => ⟨_, catalogFieldText_skipped text⟩
  reordered := by
    intro fields fields' perm once
    have permuted := perm.filterMap CatalogField.list?
    rw [once] at permuted
    exact List.perm_singleton.mp permuted.symm
  inserted := by
    intro name value unknown skipped
    exact ⟨.other name, .other unknown skipped, fun _ once => once⟩
  within := by
    intro field shown shown' change text
    exact ⟨field, change.follows text, fun _ once => once⟩

/-- The fields of a catalog can be told in one way. -/
theorem CatalogText.existsUnique_fields {instructions : List Instruction} {shown : List Lexeme}
    (text : CatalogText instructions shown) :
    ∃! fields, ∃ body, Itemized fields body ∧ StructText .catalog body shown := by
  cases text with
  | declared listed _ struct =>
      obtain ⟨fields, itemized, _⟩ := listed.exists_itemized (steady_catalog instructions).areItems
      refine ⟨fields, ⟨_, itemized, struct⟩, ?_⟩
      intro fields' told
      obtain ⟨body', itemized', struct'⟩ := told
      obtain rfl := struct.unique struct'
      exact itemized'.unique itemized

/-- One change: the catalog declares the same instructions. -/
theorem CatalogText.changed {instructions : List Instruction} {shown shown' : List Lexeme}
    (text : CatalogText instructions shown) (change : CatalogChange shown shown') :
    CatalogText instructions shown' := by
  cases text with
  | declared listed once struct =>
      obtain ⟨fields, body, struct', listed', once'⟩ :=
        change.follows (steady_catalog instructions) struct listed once
      exact .declared listed' once' struct'

/-- The induction is on the changes. -/
theorem CatalogText.rearranged {instructions : List Instruction} {shown shown' : List Lexeme}
    (text : CatalogText instructions shown) (rearranged : Rearranged shown shown') :
    CatalogText instructions shown' := by
  induction rearranged with
  | refl => exact text
  | tail _ change induction => exact induction.changed change

end OpcodeCatalog.Source.Grammar

namespace OpcodeCatalog.Source

open Grammar

/-- A source that presents an accepted catalog in another way is accepted too, and declares
the same instructions, so either of them is written alike. -/
theorem instructions_of_rearranged {file file' : UInt32} {source source' : Bytes}
    {declared : List Instruction} (accepted : instructions file source = .ok declared)
    (sound : (TokenStream.ofSource file' source').ending.fault = none)
    (rearranged : Rearranged (TokenStream.ofSource file source).lexemes
      (TokenStream.ofSource file' source').lexemes) :
    instructions file' source' = .ok declared ∧
      ∀ style, (instructions file' source').map (writeInstructions style) =
        (instructions file source).map (writeInstructions style) := by
  have text := (TokenStream.instructions_eq_ok_iff.mp accepted).2
  have accepted' : instructions file' source' = .ok declared :=
    TokenStream.instructions_eq_ok_iff.mpr ⟨sound, text.rearranged rearranged⟩
  refine ⟨accepted', ?_⟩
  intro style
  rw [accepted, accepted']

/-- A function whose fields are told from the last one to the first, in a catalog with a note
in front of its functions. -/
theorem instructions_of_rearranged_of_note :
    let source := ascii
      "(functions:[(id:1,size:4,args:\"\",name:\"a\",codeBlock:End,namedValues:\x7b\x7d)])"
    let source' := ascii
      ("(note:[1,a(b:c)],functions:[(namedValues:\x7b\x7d,codeBlock:End," ++
        "name:\"a\",args:\"\",size:4,id:1)])")
    ∃ declared, instructions 1 source = .ok declared ∧
      (TokenStream.ofSource 2 source').ending.fault = none ∧
      Rearranged (TokenStream.ofSource 1 source).lexemes
        (TokenStream.ofSource 2 source').lexemes ∧
      instructions 2 source' = .ok declared ∧
      ∀ style, (instructions 2 source').map (writeInstructions style) =
        (instructions 1 source).map (writeInstructions style) := by
  intro source source'
  let note : List Lexeme :=
    [.mark .leftBracket, .integer 1, .mark .comma, .identifier (ascii "a"), .mark .leftParen,
      .identifier (ascii "b"), .mark .colon, .identifier (ascii "c"), .mark .rightParen,
      .mark .rightBracket]
  let fields : List (List Lexeme) :=
    [fieldLexemes (ascii "id") [.integer 1], fieldLexemes (ascii "size") [.integer 4],
      fieldLexemes (ascii "args") [.string []], fieldLexemes (ascii "name") [.string (ascii "a")],
      fieldLexemes (ascii "codeBlock") [.identifier (ascii "End")],
      fieldLexemes (ascii "namedValues") [.mark .leftBrace, .mark .rightBrace]]
  let struct : List (List Lexeme) → List Lexeme := fun fields =>
    .mark .leftParen :: ([.mark .comma].intercalate fields ++ [.mark .rightParen])
  let list : List Lexeme → List Lexeme := fun function =>
    .mark .leftBracket :: (function ++ [.mark .rightBracket])
  let noteField := fieldLexemes (ascii "note") note
  let listField := fieldLexemes functionsField (list (struct fields))
  let listField' := fieldLexemes functionsField (list (struct fields.reverse))
  have lexemes : (TokenStream.ofSource 1 source).lexemes = struct [listField] := by
    decide +kernel
  have lexemes' : (TokenStream.ofSource 2 source').lexemes = struct [noteField, listField'] := by
    decide +kernel
  have skippable : Skippable note := .of_alone (by decide +kernel)
  have isNote : ItemText noteField := skippable.field _
  have isField : ∀ field ∈ fields, ItemText field := by
    intro field member
    simp only [fields, List.mem_cons, List.not_mem_nil, or_false] at member
    rcases member with rfl | rfl | rfl | rfl | rfl | rfl <;>
      exact (Skippable.of_alone (by decide +kernel)).field _
  have isFunction : ItemText (struct fields) := (Skippable.of_alone (by decide +kernel)).item
  have isFunction' : ItemText (struct fields.reverse) :=
    (Skippable.of_alone (by decide +kernel)).item
  have isList : ItemText listField := (Skippable.of_alone (by decide +kernel)).field _
  have isList' : ItemText listField' := (Skippable.of_alone (by decide +kernel)).field _
  have function : FunctionChange (struct fields) (struct fields.reverse) :=
    .fields (listing_intercalate isField)
      (listing_intercalate fun field member => isField field (List.mem_reverse.mp member))
      (.reordered (List.reverse_perm fields).symm) .unnamed .unnamed
  have functions : FunctionsChange listField listField' :=
    @FunctionsChange.function [] [] _ _ _ _ (.last ⟨rfl, isFunction⟩) (.last ⟨rfl, isFunction'⟩)
      function
  have inserted : CatalogChange (struct [listField]) (struct [noteField, listField]) :=
    .fields (.last ⟨rfl, isList⟩) (.cons ⟨rfl, isNote⟩ (.last ⟨rfl, isList⟩))
      (@FieldsChange.inserted _ _ [] [listField] _ _ (by decide) skippable) .unnamed .unnamed
  have within : CatalogChange (struct [noteField, listField]) (struct [noteField, listField']) :=
    .fields (.cons ⟨rfl, isNote⟩ (.last ⟨rfl, isList⟩))
      (.cons ⟨rfl, isNote⟩ (.last ⟨rfl, isList'⟩))
      (@FieldsChange.within _ _ [noteField] [] _ _ functions) .unnamed .unnamed
  have rearranged : Rearranged (TokenStream.ofSource 1 source).lexemes
      (TokenStream.ofSource 2 source').lexemes := by
    rw [lexemes, lexemes']
    exact .tail (.single inserted) within
  have sound : (TokenStream.ofSource 2 source').ending.fault = none := by decide +kernel
  have succeeds : (instructions 1 source).isOk = true := by decide +kernel
  cases accepted : instructions 1 source with
  | error refusal =>
      rw [accepted] at succeeds
      cases succeeds
  | ok declared =>
      rw [← accepted]
      exact ⟨declared, accepted, sound, rearranged,
        instructions_of_rearranged accepted sound rearranged⟩

end OpcodeCatalog.Source

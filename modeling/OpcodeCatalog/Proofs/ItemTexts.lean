import OpcodeCatalog.Proofs.CatalogAcceptance
import Mathlib.Data.List.Forall2

/-!
# Texts as items

Fields, entries and functions stand in brackets, with commas between them.  What
each of them means aside, they are items: a value, or two with a colon between
them.  The lexemes between two brackets are a listing of items in one way only,
so the fields of a structure can be told before anything is known of them.
-/

namespace OpcodeCatalog.Source.Grammar

/-- An item, however deep it nests. -/
def ItemText (item : List Lexeme) : Prop :=
  ∃ depth, SkippedItem (SkippedValue depth) item

/-- The items of a listing, each told by its lexemes. -/
def Itemized (items : List (List Lexeme)) (shown : List Lexeme) : Prop :=
  Listing (fun item text => text = item ∧ ItemText item) items shown

/-- The lexemes of a field. -/
def fieldLexemes (name : Bytes) (value : List Lexeme) : List Lexeme :=
  .identifier name :: .mark .colon :: value

/-! ## Wider relations -/

theorem Listing.mono {text wider : α → List Lexeme → Prop}
    (wide : ∀ thing shown, text thing shown → wider thing shown) {things : List α}
    {shown : List Lexeme} (listed : Listing text things shown) : Listing wider things shown := by
  induction listed with
  | nil => exact .nil
  | last shows => exact .last (wide _ _ shows)
  | cons shows _ induction => exact .cons (wide _ _ shows) induction

section Wider

variable {value wider : List Lexeme → Prop} {shown : List Lexeme}

theorem SkippedItem.mono (wide : ∀ shown, value shown → wider shown)
    (item : SkippedItem value shown) : SkippedItem wider shown := by
  cases item with
  | single only => exact .single (wide _ only)
  | pair first second => exact .pair (wide _ first) (wide _ second)

theorem SkippedItems.mono (wide : ∀ shown, value shown → wider shown)
    (items : SkippedItems value shown) : SkippedItems wider shown := by
  obtain ⟨texts, listed⟩ := items
  exact ⟨texts, listed.mono fun _ _ item => ⟨item.1, item.2.mono wide⟩⟩

theorem SkippedOver.mono (wide : ∀ shown, value shown → wider shown)
    (skipped : SkippedOver value shown) : SkippedOver wider shown := by
  cases skipped with
  | integer number => exact .integer number
  | string text => exact .string text
  | word word => exact .word word
  | bracketed closing items => exact .bracketed closing (items.mono wide)
  | named name items => exact .named name (items.mono wide)

/-- A value may nest deeper than it does. -/
theorem SkippedValue.mono {depth deeper : Nat} (deep : depth ≤ deeper)
    (skipped : SkippedValue depth shown) : SkippedValue deeper shown := by
  induction depth generalizing deeper shown with
  | zero => exact skipped.elim
  | succ depth induction =>
      obtain ⟨more, rfl⟩ := Nat.exists_eq_add_of_le' deep
      exact SkippedOver.mono (fun _ inner => induction (Nat.le_add_left _ _) inner) skipped

end Wider

/-! ## One way to tell items apart -/

/-- In front of what cannot go on with a value, an item ends in one place only. -/
theorem ItemText.unique {first second rest rest' : List Lexeme} (item : ItemText first)
    (closed : Reader.Closed rest) (item' : ItemText second) (closed' : Reader.Closed rest')
    (same : first ++ rest = second ++ rest') : first = second ∧ rest = rest' := by
  obtain ⟨depth, item⟩ := item
  obtain ⟨depth', item'⟩ := item'
  have wide := fun shown => @SkippedValue.mono shown _ _ (Nat.le_max_left depth depth')
  have wide' := fun shown => @SkippedValue.mono shown _ _ (Nat.le_max_right depth depth')
  have values := Reader.readsValues_skipValueWithin (max depth depth')
  have read : () = () ∧ first = second ∧ rest = rest' :=
    (Reader.reads_skipItem values).unique (item.mono wide) closed (item'.mono wide') closed' same
  exact read.2

theorem closed_nil : Reader.Closed [] := by
  simp [Reader.Closed]

theorem closed_comma (rest : List Lexeme) : Reader.Closed (.mark .comma :: rest) := by
  simp [Reader.Closed]

theorem ItemText.ne_nil {item : List Lexeme} (text : ItemText item) : item ≠ [] := by
  obtain ⟨depth, text⟩ := text
  obtain ⟨_, _, front, _⟩ :=
    Reader.opensValue_of_skippedItem (Reader.readsValues_skipValueWithin depth) text
  rw [front]
  exact List.cons_ne_nil _ _

/-- The induction is on the listing of the first items, whose front the second ones share. -/
theorem Itemized.unique {items items' : List (List Lexeme)} {shown : List Lexeme}
    (listed : Itemized items shown) (listed' : Itemized items' shown) : items = items' := by
  unfold Itemized at listed listed'
  generalize same : shown = shown' at listed'
  induction listed generalizing items' shown' with
  | nil =>
      cases listed' with
      | nil => rfl
      | last item =>
          obtain ⟨rfl, item⟩ := item
          exact (item.ne_nil same.symm).elim
      | cons _ _ => simp at same
  | @last _ shown item =>
      obtain ⟨rfl, item⟩ := item
      cases listed' with
      | nil => exact (item.ne_nil same).elim
      | last item' =>
          obtain ⟨rfl, _⟩ := item'
          rw [same]
      | cons item' _ =>
          obtain ⟨rfl, item'⟩ := item'
          rw [← List.append_nil shown] at same
          obtain ⟨_, impossible⟩ := item.unique closed_nil item' (closed_comma _) same
          cases impossible
  | @cons _ _ shown rest item _ induction =>
      obtain ⟨rfl, item⟩ := item
      cases listed' with
      | nil => simp at same
      | @last _ shown' item' =>
          obtain ⟨rfl, item'⟩ := item'
          rw [← List.append_nil shown'] at same
          obtain ⟨_, impossible⟩ := item.unique (closed_comma _) item' closed_nil same
          cases impossible
      | cons item' listed' =>
          obtain ⟨rfl, item'⟩ := item'
          obtain ⟨rfl, sameRest⟩ := item.unique (closed_comma _) item' (closed_comma _) same
          rw [induction _ (List.cons.inj sameRest).2 listed']

/-! ## Listings told by their texts -/

section Listings

variable {text : α → List Lexeme → Prop} {things : List α} {items : List (List Lexeme)}
  {shown : List Lexeme}

/-- The texts of the things of a listing. -/
theorem Listing.exists_texts (listed : Listing text things shown) :
    ∃ items, Listing (fun item shown => shown = item ∧ ∃ thing, text thing item) items shown ∧
      List.Forall₂ text things items := by
  induction listed with
  | nil => exact ⟨[], .nil, .nil⟩
  | @last thing shown shows => exact ⟨[shown], .last ⟨rfl, thing, shows⟩, .cons shows .nil⟩
  | @cons thing _ shown _ shows _ induction =>
      obtain ⟨items, listed, texts⟩ := induction
      exact ⟨shown :: items, .cons ⟨rfl, thing, shows⟩ listed, .cons shows texts⟩

theorem Itemized.listing (listed : Itemized items shown) (texts : List.Forall₂ text things items) :
    Listing text things shown := by
  unfold Itemized at listed
  induction listed generalizing things with
  | nil =>
      cases texts
      exact .nil
  | last item =>
      obtain ⟨rfl, _⟩ := item
      cases texts with
      | cons shows texts =>
          cases texts
          exact .last shows
  | cons item _ induction =>
      obtain ⟨rfl, _⟩ := item
      cases texts with
      | cons shows texts => exact .cons shows (induction texts)

theorem Listing.exists_itemized (areItems : ∀ thing shown, text thing shown → ItemText shown)
    (listed : Listing text things shown) :
    ∃ items, Itemized items shown ∧ List.Forall₂ text things items := by
  obtain ⟨items, listed, texts⟩ := listed.exists_texts
  refine ⟨items, listed.mono ?_, texts⟩
  intro item shown shows
  obtain ⟨same, thing, shows⟩ := shows
  exact ⟨same, areItems thing item shows⟩

/-- Things that are shown by items are shown by the items of their listing, one by one. -/
theorem Itemized.texts (itemized : Itemized items shown)
    (areItems : ∀ thing shown, text thing shown → ItemText shown)
    (listed : Listing text things shown) : List.Forall₂ text things items := by
  obtain ⟨items', itemized', texts⟩ := listed.exists_itemized areItems
  rwa [itemized.unique itemized']

/-- Any items can be listed. -/
theorem listing_intercalate {item : List Lexeme → Prop} (areItems : ∀ shown ∈ items, item shown) :
    Listing (fun shown text => text = shown ∧ item shown) items
      ([.mark .comma].intercalate items) := by
  induction items with
  | nil => exact .nil
  | cons first items induction =>
      have firstItem := areItems first List.mem_cons_self
      have others := induction fun other member => areItems other (List.mem_cons_of_mem _ member)
      cases items with
      | nil =>
          rw [List.intercalate_singleton]
          exact .last ⟨rfl, firstItem⟩
      | cons second items =>
          rw [List.intercalate_cons_cons, List.append_assoc, List.singleton_append]
          exact .cons ⟨rfl, firstItem⟩ others

theorem skippedItems_of_listing {value : List Lexeme → Prop}
    (areItems : ∀ thing shown, text thing shown → SkippedItem value shown)
    (listed : Listing text things shown) : SkippedItems value shown := by
  obtain ⟨items, listed, _⟩ := listed.exists_texts
  refine ⟨items, listed.mono ?_⟩
  intro item shown shows
  obtain ⟨same, thing, shows⟩ := shows
  exact ⟨same, areItems thing item shows⟩

end Listings

/-! ## What catalogs are made of -/

theorem skippedItem_field {depth : Nat} {value : List Lexeme} (name : Bytes)
    (skipped : SkippedValue (depth + 1) value) :
    SkippedItem (SkippedValue (depth + 1)) (fieldLexemes name value) := by
  have word : SkippedValue (depth + 1) [.identifier name] := SkippedOver.word name
  exact .pair word skipped

theorem slotText_skipped {slot : UInt32} {bound : Lexeme} {shown : List Lexeme}
    (scalar : ∀ value, SkippedOver value [bound]) (text : SlotText slot bound shown) :
    SkippedValue 2 shown := by
  have slotItem : SkippedItem (SkippedValue 1) [.integer slot.toNat] := .single (.integer _)
  have boundItem : SkippedItem (SkippedValue 1) [bound] := .single (scalar _)
  cases text with
  | plain =>
      exact SkippedOver.bracketed rfl
        ⟨[[.integer slot.toNat], [bound]], .cons ⟨rfl, slotItem⟩ (.last ⟨rfl, boundItem⟩)⟩
  | comma =>
      exact SkippedOver.bracketed rfl
        ⟨[[.integer slot.toNat], [bound]], .cons ⟨rfl, slotItem⟩ (.cons ⟨rfl, boundItem⟩ .nil)⟩

theorem namedValueText_skipped {entry : NamedValue} {shown : List Lexeme}
    (text : NamedValueText entry shown) : SkippedItem (SkippedValue 2) shown := by
  cases text with
  | pair value name =>
      exact .pair (slotText_skipped (fun _ => .integer _) value)
        (slotText_skipped (fun _ => .string _) name)

theorem valueText_skipped {declaration : FieldDeclaration} {shown : List Lexeme}
    (text : ValueText declaration shown) : SkippedValue Reader.maxDepth shown := by
  cases text with
  | id id => exact SkippedOver.integer _
  | size size => exact SkippedOver.integer _
  | args descriptor => exact SkippedOver.string _
  | name name => exact SkippedOver.string _
  | codeBlock block => exact SkippedOver.word _
  | namedValues listed =>
      have items := skippedItems_of_listing (fun _ _ => namedValueText_skipped) listed
      have shallow : SkippedValue 3 (.mark .leftBrace :: (_ ++ [.mark .rightBrace])) :=
        SkippedOver.bracketed rfl items
      exact shallow.mono (by decide)
  | other skipped => exact skipped

theorem fieldText_skipped {declaration : FieldDeclaration} {shown : List Lexeme}
    (text : FieldText declaration shown) : SkippedItem (SkippedValue Reader.maxDepth) shown := by
  cases text with
  | named _ shows => exact skippedItem_field _ (valueText_skipped shows)

theorem functionText_skipped {instruction : Instruction} {shown : List Lexeme}
    (text : FunctionText instruction shown) : SkippedValue (Reader.maxDepth + 1) shown := by
  cases text with
  | declared listed _ struct =>
      have items := skippedItems_of_listing (fun _ _ => fieldText_skipped) listed
      cases struct with
      | unnamed => exact SkippedOver.bracketed rfl items
      | named => exact SkippedOver.named _ items

theorem catalogFieldText_skipped {field : CatalogField} {shown : List Lexeme}
    (text : CatalogFieldText field shown) :
    SkippedItem (SkippedValue (Reader.maxDepth + 2)) shown := by
  cases text with
  | functions listed =>
      have items := skippedItems_of_listing
        (fun _ _ text => SkippedItem.single (functionText_skipped text)) listed
      exact skippedItem_field _ (SkippedOver.bracketed rfl items)
  | other _ skipped => exact skippedItem_field _ (skipped.mono (Nat.le_add_right Reader.maxDepth 2))

end OpcodeCatalog.Source.Grammar

import OpcodeCatalog.Proofs.Grammar

/-!
# Values as trees

A value that is skipped is a tree: scalars, and items between two brackets that
belong together.  Its depth is told from the tree alone, one for a scalar and one
more than the deepest value inside for brackets.  The texts of values that nest
at most so deep are those of the trees that are no deeper.
-/

namespace OpcodeCatalog.Source.Grammar

/-- What stands around items; only round brackets may have a name in front. -/
inductive Brackets where
  | round (name : Option Bytes)
  | square
  | curly

namespace Brackets

def mark : Brackets → Mark
  | round _ => .leftParen
  | square => .leftBracket
  | curly => .leftBrace

def closing : Brackets → Mark
  | round _ => .rightParen
  | square => .rightBracket
  | curly => .rightBrace

def name : Brackets → List Lexeme
  | round (some name) => [.identifier name]
  | _ => []

theorem closing?_mark (brackets : Brackets) : brackets.mark.closing? = some brackets.closing := by
  cases brackets <;> rfl

end Brackets

mutual

inductive Value where
  | integer (number : Int)
  | string (text : Bytes)
  | word (word : Bytes)
  | bracketed (brackets : Brackets) (items : Items)

/-- Items with commas between them; `before` has the comma behind its item, so a last comma
is a `before` with nothing more. -/
inductive Items where
  | nothing
  | last (item : Item)
  | before (item : Item) (more : Items)

inductive Item where
  | single (value : Value)
  | pair (key value : Value)

end

mutual

def Value.lexemes : Value → List Lexeme
  | .integer number => [.integer number]
  | .string text => [.string text]
  | .word word => [.identifier word]
  | .bracketed brackets items =>
      brackets.name ++ .mark brackets.mark :: (items.lexemes ++ [.mark brackets.closing])

def Items.lexemes : Items → List Lexeme
  | .nothing => []
  | .last item => item.lexemes
  | .before item more => item.lexemes ++ .mark .comma :: more.lexemes

def Item.lexemes : Item → List Lexeme
  | .single value => value.lexemes
  | .pair key value => key.lexemes ++ .mark .colon :: value.lexemes

end

mutual

/-- How deep a value nests. -/
def Value.depth : Value → Nat
  | .bracketed _ items => 1 + items.depth
  | _ => 1

/-- The depth of the deepest value inside. -/
def Items.depth : Items → Nat
  | .nothing => 0
  | .last item => item.depth
  | .before item more => max item.depth more.depth

def Item.depth : Item → Nat
  | .single value => value.depth
  | .pair key value => max key.depth value.depth

end

theorem Value.depth_pos (value : Value) : 0 < value.depth := by
  cases value with
  | bracketed brackets items =>
      rw [depth]
      omega
  | integer number => exact Nat.one_pos
  | string text => exact Nat.one_pos
  | word word => exact Nat.one_pos

/-! ## Trees have texts -/

theorem SkippedOver.brackets {value : List Lexeme → Prop} (brackets : Brackets)
    {items : List Lexeme} (skipped : SkippedItems value items) :
    SkippedOver value
      (brackets.name ++ .mark brackets.mark :: (items ++ [.mark brackets.closing])) := by
  cases brackets with
  | round name =>
      cases name with
      | none => exact .bracketed rfl skipped
      | some name => exact .named name skipped
  | square => exact .bracketed rfl skipped
  | curly => exact .bracketed rfl skipped

mutual

theorem Value.skippedValue (value : Value) {bound : Nat} (shallow : value.depth ≤ bound) :
    SkippedValue bound value.lexemes := by
  obtain ⟨inside, rfl⟩ := Nat.exists_eq_add_of_le' (Nat.le_trans value.depth_pos shallow)
  cases value with
  | integer number => exact SkippedOver.integer number
  | string text => exact SkippedOver.string text
  | word word => exact SkippedOver.word word
  | bracketed brackets items =>
      rw [Value.depth, Nat.add_comm] at shallow
      exact .brackets brackets (items.skippedItems (Nat.le_of_succ_le_succ shallow))

theorem Items.skippedItems (items : Items) {bound : Nat} (shallow : items.depth ≤ bound) :
    SkippedItems (SkippedValue bound) items.lexemes := by
  cases items with
  | nothing => exact ⟨[], .nil⟩
  | last item =>
      exact ⟨[item.lexemes], .last ⟨rfl, item.skippedItem shallow⟩⟩
  | before item more =>
      obtain ⟨first, later⟩ := Nat.max_le.mp shallow
      obtain ⟨texts, listed⟩ := more.skippedItems later
      exact ⟨item.lexemes :: texts, .cons ⟨rfl, item.skippedItem first⟩ listed⟩

theorem Item.skippedItem (item : Item) {bound : Nat} (shallow : item.depth ≤ bound) :
    SkippedItem (SkippedValue bound) item.lexemes := by
  cases item with
  | single value => exact .single (value.skippedValue shallow)
  | pair key value =>
      obtain ⟨first, second⟩ := Nat.max_le.mp shallow
      exact .pair (key.skippedValue first) (value.skippedValue second)

end

/-! ## Texts have trees -/

section Trees

variable {value : List Lexeme → Prop} {bound : Nat} {shown : List Lexeme}

theorem Brackets.exists_of_closing? {opening closing : Mark}
    (closes : opening.closing? = some closing) :
    ∃ brackets : Brackets, brackets.name = [] ∧ brackets.mark = opening ∧
      brackets.closing = closing := by
  cases opening with
  | leftParen => exact ⟨.round none, rfl, rfl, Option.some.inj closes⟩
  | leftBracket => exact ⟨.square, rfl, rfl, Option.some.inj closes⟩
  | leftBrace => exact ⟨.curly, rfl, rfl, Option.some.inj closes⟩
  | _ => cases closes

variable (trees : ∀ shown, value shown → ∃ tree : Value, tree.lexemes = shown ∧ tree.depth ≤ bound)

include trees

theorem SkippedItem.exists_tree (skipped : SkippedItem value shown) :
    ∃ item : Item, item.lexemes = shown ∧ item.depth ≤ bound := by
  cases skipped with
  | single only =>
      obtain ⟨tree, rfl, shallow⟩ := trees _ only
      exact ⟨.single tree, rfl, shallow⟩
  | pair first second =>
      obtain ⟨key, rfl, shallowKey⟩ := trees _ first
      obtain ⟨tree, rfl, shallow⟩ := trees _ second
      exact ⟨.pair key tree, rfl, Nat.max_le.mpr ⟨shallowKey, shallow⟩⟩

theorem SkippedItems.exists_tree (skipped : SkippedItems value shown) :
    ∃ items : Items, items.lexemes = shown ∧ items.depth ≤ bound := by
  obtain ⟨texts, listed⟩ := skipped
  induction listed with
  | nil => exact ⟨.nothing, rfl, Nat.zero_le bound⟩
  | last only =>
      obtain ⟨rfl, only⟩ := only
      obtain ⟨item, rfl, shallow⟩ := only.exists_tree trees
      exact ⟨.last item, rfl, shallow⟩
  | cons first _ induction =>
      obtain ⟨rfl, first⟩ := first
      obtain ⟨item, rfl, shallow⟩ := first.exists_tree trees
      obtain ⟨more, rfl, shallowMore⟩ := induction
      exact ⟨.before item more, rfl, Nat.max_le.mpr ⟨shallow, shallowMore⟩⟩

theorem SkippedOver.exists_tree (skipped : SkippedOver value shown) :
    ∃ tree : Value, tree.lexemes = shown ∧ tree.depth ≤ bound + 1 := by
  have scalar : 1 ≤ bound + 1 := Nat.le_add_left 1 bound
  cases skipped with
  | integer number => exact ⟨.integer number, rfl, scalar⟩
  | string text => exact ⟨.string text, rfl, scalar⟩
  | word word => exact ⟨.word word, rfl, scalar⟩
  | bracketed closes inside =>
      obtain ⟨brackets, unnamed, rfl, rfl⟩ := Brackets.exists_of_closing? closes
      obtain ⟨items, rfl, shallow⟩ := inside.exists_tree trees
      refine ⟨.bracketed brackets items, ?_, ?_⟩
      · rw [Value.lexemes, unnamed, List.nil_append]
      · rw [Value.depth]
        omega
  | named name inside =>
      obtain ⟨items, rfl, shallow⟩ := inside.exists_tree trees
      refine ⟨.bracketed (.round (some name)) items, rfl, ?_⟩
      rw [Value.depth]
      omega

end Trees

/-- The induction is on the bound: what stands in brackets is a level less deep. -/
theorem SkippedValue.exists_tree {bound : Nat} {shown : List Lexeme}
    (skipped : SkippedValue bound shown) :
    ∃ tree : Value, tree.lexemes = shown ∧ tree.depth ≤ bound := by
  induction bound generalizing shown with
  | zero => exact skipped.elim
  | succ bound induction =>
      exact SkippedOver.exists_tree (fun _ inside => induction inside) skipped

/-- The texts of a bounded depth are those of the trees that are no deeper. -/
theorem skippedValue_iff {bound : Nat} {shown : List Lexeme} :
    SkippedValue bound shown ↔ ∃ tree : Value, tree.lexemes = shown ∧ tree.depth ≤ bound := by
  constructor
  · exact SkippedValue.exists_tree
  · rintro ⟨tree, rfl, shallow⟩
    exact tree.skippedValue shallow

end OpcodeCatalog.Source.Grammar

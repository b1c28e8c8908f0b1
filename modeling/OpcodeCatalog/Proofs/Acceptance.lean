import OpcodeCatalog.Proofs.Reading
import OpcodeCatalog.Source.Document

/-!
# What catalog readers accept

Each reader of a part of a catalog reads the texts that the grammar has for that
part.  A draft records one field after the other, and is completed by exactly
those fields that declare an instruction.
-/

namespace OpcodeCatalog.Source.Reader

open Grammar

theorem reads_integer (type : IntegerType) (field : Bytes) :
    Reads (integer type field) (fun value shown => type.Holds value ∧ shown = [.integer value]) := by
  apply (Reads.take _ _).congr
  intro value shown
  constructor
  · intro read
    obtain ⟨lexeme, picked, rfl⟩ := read
    cases lexeme with
    | integer number =>
        simp only [Option.some.injEq] at picked
        split at picked
        · next holds =>
          cases picked
          exact ⟨holds, rfl⟩
        · cases picked
    | mark _ => cases picked
    | identifier _ => cases picked
    | string _ => cases picked
  · intro found
    obtain ⟨holds, rfl⟩ := found
    exact ⟨.integer value, by simp [holds], rfl⟩

theorem reads_unsigned (field : Bytes) :
    Reads (unsigned field) (fun value shown => shown = [.integer value.toNat]) := by
  apply ((reads_integer .unsigned32 field).map _).congr
  intro value shown
  constructor
  · intro found
    obtain ⟨number, rfl, holds, rfl⟩ := found
    have small : number.toNat < 2 ^ 32 := by
      have upper : number < 0x100000000 := holds.2
      omega
    have exact' : ((UInt32.ofNat number.toNat).toNat : Int) = number := by
      rw [UInt32.toNat_ofNat_of_lt' small]
      exact Int.toNat_of_nonneg holds.1
    rw [exact']
  · intro same
    subst same
    refine ⟨value.toNat, ?_, ⟨Int.natCast_nonneg _, ?_⟩, rfl⟩
    · rw [Int.toNat_natCast, UInt32.ofNat_toNat]
    · have bounded := value.toNat_lt
      omega

theorem reads_signed (field : Bytes) :
    Reads (signed field) (fun value shown => shown = [.integer value.toInt]) := by
  apply ((reads_integer .signed32 field).map _).congr
  intro value shown
  constructor
  · intro found
    obtain ⟨number, rfl, ⟨lower, upper⟩, rfl⟩ := found
    rw [Int32.toInt_ofInt_of_le lower upper]
  · intro same
    subst same
    exact ⟨value.toInt, by simp, ⟨value.le_toInt, value.toInt_lt⟩, rfl⟩

theorem reads_string (field : Bytes) :
    Reads (string field) (fun value shown => shown = [.string value]) := by
  apply (Reads.take _ _).congr
  intro value shown
  constructor
  · intro read
    obtain ⟨lexeme, picked, rfl⟩ := read
    cases lexeme with
    | string text =>
        cases picked
        rfl
    | mark _ => cases picked
    | identifier _ => cases picked
    | integer _ => cases picked
  · intro same
    subst same
    exact ⟨.string value, rfl, rfl⟩

theorem ofSpelling?_eq_some_iff {text : Bytes} {block : CodeBlock} :
    CodeBlock.ofSpelling? text = some block ↔ text = block.spelling := by
  constructor
  · intro found
    have matched := List.find?_some found
    exact (beq_iff_eq.mp matched).symm
  · intro same
    subst same
    cases block <;> rfl

theorem reads_codeBlock :
    Reads codeBlock (fun block shown => shown = [.identifier block.spelling]) := by
  apply (Reads.take _ _).congr
  intro block shown
  constructor
  · intro read
    obtain ⟨lexeme, picked, rfl⟩ := read
    cases lexeme with
    | identifier text =>
        simp only [Option.some.injEq] at picked
        split at picked
        · next found =>
          cases picked
          rw [ofSpelling?_eq_some_iff.mp found]
        · cases picked
    | mark _ => cases picked
    | integer _ => cases picked
    | string _ => cases picked
  · intro same
    subst same
    exact ⟨.identifier block.spelling, by simp [ofSpelling?_eq_some_iff.mpr rfl], rfl⟩

/-- The opening of a structure, up to its bracket. -/
theorem reads_openStruct (name : StructName) :
    Reads (openStruct name) (fun _ shown =>
      shown = [.mark .leftParen] ∨ shown = [.identifier name.spelling, .mark .leftParen]) := by
  have late : ∀ named : Bool, Reads (if named then expect .leftParen (.openStruct name)
      else pure ()) (fun _ shown => shown = if named then [.mark .leftParen] else []) := by
    intro named
    cases named with
    | true => exact (Reads.expect _ _).congr fun _ _ => Iff.rfl
    | false => exact Reads.nothing
  apply ((Reads.take _ _).bind late).congr
  intro _ shown
  constructor
  · intro read
    obtain ⟨named, front, back, rfl, ⟨lexeme, picked, rfl⟩, rfl⟩ := read
    cases lexeme with
    | mark symbol =>
        cases symbol <;> cases picked
        left
        rfl
    | identifier text =>
        simp only [Option.some.injEq] at picked
        split at picked
        · next same =>
          cases picked
          right
          rw [same]
          rfl
        · cases picked
    | integer _ => cases picked
    | string _ => cases picked
  · intro opened
    rcases opened with rfl | rfl
    · exact ⟨false, [.mark .leftParen], [], rfl, ⟨.mark .leftParen, rfl, rfl⟩, rfl⟩
    · exact ⟨true, [.identifier name.spelling], [.mark .leftParen], rfl,
        ⟨.identifier name.spelling, by simp, rfl⟩, rfl⟩

/-- A field is its name, a colon, and what the rest of the reader makes of the name. -/
theorem reads_fieldName_bind {second : FieldName → Reader α}
    (text : Bytes → α → List Lexeme → Prop) {ahead : α → List Lexeme → Prop}
    (reads : ∀ found, Reads (second found) (text found.name) ahead) :
    Reads (fieldName >>= second)
      (fun value shown => ∃ name rest,
        shown = .identifier name :: .mark .colon :: rest ∧ text name value rest) ahead := by
  unfold fieldName
  simp only [bind_assoc, pure_bind]
  apply Reads.location_bind
  intro location
  apply ((Reads.take _ _).bind fun name =>
    (Reads.expect .colon (.afterField name)).bind fun _ => reads ⟨name, location⟩).congr
  intro value shown
  constructor
  · intro read
    obtain ⟨name, _, _, rfl, ⟨lexeme, picked, rfl⟩, _, _, rest, rfl, rfl, shown⟩ := read
    cases lexeme with
    | identifier text =>
        cases picked
        exact ⟨name, rest, rfl, shown⟩
    | mark _ => cases picked
    | integer _ => cases picked
    | string _ => cases picked
  · intro found
    obtain ⟨name, rest, rfl, shown⟩ := found
    exact ⟨name, [.identifier name], .mark .colon :: rest, rfl,
      ⟨.identifier name, rfl, rfl⟩, (), [.mark .colon], rest, rfl, rfl, shown⟩

/-! ## Skipped values -/

theorem opensValue_of_skippedOver {value : List Lexeme → Prop} {shown : List Lexeme}
    (skipped : SkippedOver value shown) : Opens shown := by
  cases skipped with
  | integer number => exact ⟨_, _, rfl, rfl⟩
  | string text => exact ⟨_, _, rfl, rfl⟩
  | word word => exact ⟨_, _, rfl, rfl⟩
  | bracketed closing => exact ⟨_, _, rfl, by simp [Lexeme.opensValue, closing]⟩
  | named name => exact ⟨_, _, rfl, rfl⟩

/-- What `skipValueOver` needs of the reader of the values inside. -/
structure ReadsValues (inner : Reader Unit) (value : List Lexeme → Prop) : Prop where
  reads : Reads inner (fun _ => value) (fun _ rest => rest.head? ≠ some (.mark .leftParen))
  opens : ∀ shown, value shown → Opens shown

variable {inner : Reader Unit} {value : List Lexeme → Prop}

theorem reads_skipItem (values : ReadsValues inner value) :
    Reads (skipItem inner) (fun _ => SkippedItem value) (fun _ rest => Closed rest) := by
  have second : ∀ paired : Bool,
      Reads (if paired then inner else pure ())
        (fun _ shown => if paired then value shown else shown = [])
        (fun _ rest => Closed rest) := by
    intro paired
    cases paired with
    | true => exact values.reads.before fun _ _ closed => closed.1
    | false => exact Reads.nothing
  have later := (Reads.takeMark? .colon).bindBefore second (by
    intro paired _ shown rest read closed missing
    subst missing
    obtain rfl : shown = [] := read
    exact closed.2)
  refine (values.reads.bindBefore (fun _ => later) ?_).congr ?_
  · intro _ _ shown rest read closed
    obtain ⟨paired, front, back, rfl, rfl, back_shown⟩ := read
    cases paired with
    | true => simp
    | false =>
        obtain rfl : back = [] := back_shown
        exact closed.1
  · intro _ shown
    constructor
    · intro read
      obtain ⟨_, first, _, rfl, firstShown, paired, _, back, rfl, rfl, backShown⟩ := read
      cases paired with
      | true => exact .pair firstShown backShown
      | false =>
          obtain rfl : back = [] := backShown
          simpa using SkippedItem.single firstShown
    · intro item
      cases item with
      | single shownValue =>
          exact ⟨(), shown, [], by simp, shownValue, false, [], [], rfl, rfl, rfl⟩
      | @pair first second firstShown secondShown =>
          exact ⟨(), first, .mark .colon :: second, rfl, firstShown, true, [.mark .colon],
            second, rfl, rfl, secondShown⟩

theorem opensValue_of_skippedItem (values : ReadsValues inner value) {shown : List Lexeme}
    (item : SkippedItem value shown) : Opens shown := by
  cases item with
  | single shownValue => exact values.opens _ shownValue
  | pair firstShown _ => exact (values.opens _ firstShown).append _

theorem steps_trivial {state final : Unit} {things : List ε} :
    Steps (fun _ _ _ => True) state things final := by
  induction things with
  | nil => exact .nil
  | cons thing things induction => exact .cons trivial induction

theorem reads_skipItems (values : ReadsValues inner value) (advances : inner.Advances)
    {opening close : Mark} (closing : opening.closing? = some close) :
    Reads (skipItems inner advances close) (fun _ shown =>
      ∃ items, SkippedItems value items ∧ shown = items ++ [.mark close]) := by
  have item : ∀ state : Unit, Reads (skipItem inner)
      (fun _ shown => ∃ thing, (shown = thing ∧ SkippedItem value thing) ∧ True)
      (fun _ rest => Closed rest) := by
    intro _
    apply (reads_skipItem values).congr
    intro _ shown
    constructor
    · intro item
      exact ⟨shown, ⟨rfl, item⟩, trivial⟩
    · intro found
      obtain ⟨_, ⟨rfl, item⟩, _⟩ := found
      exact item
  have opens : ∀ thing shown, shown = thing ∧ SkippedItem value thing → Opens shown := by
    intro thing shown item
    obtain ⟨rfl, item⟩ := item
    exact opensValue_of_skippedItem values item
  have listing : Reads
      (Reader.items close (fun _ => skipItem inner) (fun _ => advances_skipItem advances) ())
      (fun final shown => ∃ things,
        Listing (fun thing text => text = thing ∧ SkippedItem value thing) things shown ∧
          Steps (fun _ _ _ => True) () things final)
      (fun _ rest => rest.head? = some (.mark close)) :=
    Reads.items _ closing item opens ()
  refine (listing.bindBefore (fun _ => Reads.expect close .closeSkipped) ?_).congr ?_
  · intro _ _ shown rest closed _
    obtain rfl : shown = [.mark close] := closed
    rfl
  · intro _ shown
    constructor
    · intro found
      obtain ⟨_, items, _, rfl, ⟨things, listed, _⟩, rfl⟩ := found
      exact ⟨items, ⟨things, listed⟩, rfl⟩
    · intro found
      obtain ⟨items, ⟨things, listed⟩, rfl⟩ := found
      exact ⟨(), items, [.mark close], rfl, ⟨things, listed, steps_trivial⟩, rfl⟩

/-- What follows the first lexeme of a skipped value. -/
def AfterFront (value : List Lexeme → Prop) (shown : List Lexeme) : Lexeme → Prop
  | .mark symbol =>
    match symbol.closing? with
    | some close => ∃ items, SkippedItems value items ∧ shown = items ++ [.mark close]
    | none => shown = []
  | .identifier _ => shown = [] ∨ ∃ items,
      SkippedItems value items ∧ shown = .mark .leftParen :: (items ++ [.mark .rightParen])
  | _ => shown = []

theorem skippedOver_iff {shown : List Lexeme} :
    SkippedOver value shown ↔ ∃ front rest,
      front.opensValue = true ∧ shown = front :: rest ∧ AfterFront value rest front := by
  constructor
  · intro skipped
    cases skipped with
    | integer number => exact ⟨_, _, rfl, rfl, rfl⟩
    | string text => exact ⟨_, _, rfl, rfl, rfl⟩
    | word word => exact ⟨_, _, rfl, rfl, Or.inl rfl⟩
    | @bracketed opening closing items closes listed =>
        refine ⟨.mark opening, items ++ [.mark closing], ?_, rfl, ?_⟩
        · simp [Lexeme.opensValue, closes]
        · simp only [AfterFront, closes]
          exact ⟨items, listed, rfl⟩
    | named name listed => exact ⟨_, _, rfl, rfl, Or.inr ⟨_, listed, rfl⟩⟩
  · intro found
    obtain ⟨front, rest, opens, rfl, after⟩ := found
    cases front with
    | mark symbol =>
        obtain ⟨close, closes⟩ := Option.isSome_iff_exists.mp opens
        simp only [AfterFront, closes] at after
        obtain ⟨items, listed, rfl⟩ := after
        exact .bracketed closes listed
    | identifier name =>
        rcases after with alone | listed
        · rw [alone]
          exact .word name
        · obtain ⟨items, listed, rfl⟩ := listed
          exact .named name listed
    | integer number =>
        rw [show rest = [] from after]
        exact .integer number
    | string text =>
        rw [show rest = [] from after]
        exact .string text

theorem reads_skipBehindWord (values : ReadsValues inner value) (advances : inner.Advances) :
    Reads (skipBehindWord inner advances)
      (fun _ shown => shown = [] ∨ ∃ items,
        SkippedItems value items ∧ shown = .mark .leftParen :: (items ++ [.mark .rightParen]))
      (fun _ rest => rest.head? ≠ some (.mark .leftParen)) := by
  have behind : ∀ bracketed : Bool,
      Reads (if bracketed then skipItems inner advances .rightParen else pure ())
        (fun _ shown => if bracketed then
          ∃ items, SkippedItems value items ∧ shown = items ++ [.mark .rightParen]
          else shown = [])
        (fun _ rest => rest.head? ≠ some (.mark .leftParen)) := by
    intro bracketed
    cases bracketed with
    | true =>
        have closing : Mark.leftParen.closing? = some .rightParen := rfl
        exact (reads_skipItems values advances closing).wherever
    | false => exact Reads.nothing
  refine ((Reads.takeMark? .leftParen).bindBefore behind ?_).congr ?_
  · intro bracketed _ shown rest read unlike missing
    subst missing
    obtain rfl : shown = [] := read
    exact unlike
  · intro _ shown
    constructor
    · intro read
      obtain ⟨bracketed, _, back, rfl, rfl, after⟩ := read
      cases bracketed with
      | true =>
          obtain ⟨items, listed, rfl⟩ := after
          exact Or.inr ⟨items, listed, rfl⟩
      | false =>
          obtain rfl : back = [] := after
          exact Or.inl rfl
    · intro read
      rcases read with alone | listed
      · exact ⟨false, [], [], alone, rfl, rfl⟩
      · obtain ⟨items, listed, rfl⟩ := listed
        exact ⟨true, [.mark .leftParen], _, rfl, rfl, items, listed, rfl⟩

theorem reads_skipBehind (values : ReadsValues inner value) (advances : inner.Advances)
    (front : Lexeme) :
    Reads (skipBehind inner advances front) (fun _ shown => AfterFront value shown front)
      (fun _ rest => rest.head? ≠ some (.mark .leftParen)) := by
  cases front with
  | mark symbol =>
      simp only [skipBehind, AfterFront]
      cases closes : symbol.closing? with
      | some close => exact (reads_skipItems values advances closes).wherever
      | none => exact Reads.nothing
  | identifier name => exact reads_skipBehindWord values advances
  | integer number => exact Reads.nothing
  | string text => exact Reads.nothing

theorem reads_skipValueOver (values : ReadsValues inner value) (advances : inner.Advances) :
    Reads (skipValueOver inner advances) (fun _ => SkippedOver value)
      (fun _ rest => rest.head? ≠ some (.mark .leftParen)) := by
  apply ((Reads.take _ _).bind (reads_skipBehind values advances)).congr
  intro _ shown
  rw [skippedOver_iff]
  constructor
  · intro read
    obtain ⟨front, _, back, rfl, ⟨lexeme, picked, rfl⟩, backShown⟩ := read
    split at picked
    · next opens =>
      cases picked
      exact ⟨front, back, opens, rfl, backShown⟩
    · cases picked
  · intro found
    obtain ⟨front, rest, opens, rfl, restShown⟩ := found
    exact ⟨front, [front], rest, rfl, ⟨front, by simp [opens], rfl⟩, restShown⟩

/-- The induction is on how deep values may still nest. -/
theorem readsValues_skipValueWithin (depth : Nat) :
    ReadsValues (skipValueWithin depth).1 (SkippedValue depth) := by
  induction depth with
  | zero => exact ⟨Reads.refuse _ fun _ _ none => none.elim, fun _ none => none.elim⟩
  | succ depth induction =>
      exact ⟨reads_skipValueOver induction (skipValueWithin depth).2,
        fun _ => opensValue_of_skippedOver⟩

theorem reads_skipValue :
    Reads skipValue (fun _ => SkippedValue maxDepth) (fun _ rest => Closed rest) :=
  (readsValues_skipValueWithin maxDepth).reads.before fun _ _ closed => closed.1

end OpcodeCatalog.Source.Reader

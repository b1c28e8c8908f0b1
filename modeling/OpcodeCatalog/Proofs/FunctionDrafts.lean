import OpcodeCatalog.Proofs.Reading
import OpcodeCatalog.Source.FunctionDraft

/-!
# Drafts and declared fields

A draft records the fields of a function one by one and has each of the six at
most once.  What is recorded stays, so a draft that is complete at the end has
been given each of them exactly once, with the values of the instruction.
-/

namespace OpcodeCatalog.Source.Grammar

/-- A draft before and after a field is recorded. -/
inductive Records (draft : FunctionDraft) : FieldDeclaration → FunctionDraft → Prop where
  | id (id : UInt32) : Records draft (.id id) { draft with id := some id }
  | size (size : UInt32) : Records draft (.size size) { draft with size := some size }
  | args (text : Bytes) : Records draft (.args text) { draft with args := some text }
  | name (name : Bytes) : Records draft (.name name) { draft with name := some name }
  | codeBlock (block : CodeBlock) :
      Records draft (.codeBlock block) { draft with codeBlock := some block }
  | namedValues {entries : List NamedValue} {values : NamedValues} :
      values.Holds entries →
      Records draft (.namedValues entries) { draft with namedValues := some values }
  | other (name : Bytes) : Records draft (.other name) draft

/-- A field that a draft does not have yet, recorded in it. -/
structure Adds (draft : FunctionDraft) (declaration : FieldDeclaration) (next : FunctionDraft) :
    Prop where
  fresh : ∀ field, declaration.field? = some field → draft.has field = false
  records : Records draft declaration next

/-- A draft has a field on record with the declared value. -/
def Shows (draft : FunctionDraft) : FieldDeclaration → Prop
  | .id id => draft.id = some id
  | .size size => draft.size = some size
  | .args text => draft.args = some text
  | .name name => draft.name = some name
  | .codeBlock block => draft.codeBlock = some block
  | .namedValues entries => ∃ values, draft.namedValues = some values ∧ values.Holds entries
  | .other _ => True

theorem Records.shows {draft next : FunctionDraft} {declaration : FieldDeclaration}
    (records : Records draft declaration next) : Shows next declaration := by
  cases records with
  | namedValues holds => exact ⟨_, rfl, holds⟩
  | other name => trivial
  | _ => rfl

theorem Records.has_iff {draft next : FunctionDraft} {declaration : FieldDeclaration}
    (records : Records draft declaration next) (field : FunctionField) :
    next.has field = true ↔ draft.has field = true ∨ declaration.field? = some field := by
  cases records <;> cases field <;> simp [FunctionDraft.has, FieldDeclaration.field?]

theorem Records.absent {draft next : FunctionDraft} {declaration : FieldDeclaration}
    (records : Records draft declaration next) {field : FunctionField}
    (absent : next.has field = false) : draft.has field = false := by
  rw [← Bool.not_eq_true] at absent ⊢
  intro present
  exact absent ((records.has_iff field).mpr (Or.inl present))

/-- Any field can be recorded, named values if they can be held at once. -/
theorem exists_records (draft : FunctionDraft) (declaration : FieldDeclaration)
    (holdable : ∀ entries, declaration = .namedValues entries →
      ∃ values : NamedValues, values.Holds entries) :
    ∃ next, Records draft declaration next := by
  cases declaration with
  | id id => exact ⟨_, .id id⟩
  | size size => exact ⟨_, .size size⟩
  | args text => exact ⟨_, .args text⟩
  | name name => exact ⟨_, .name name⟩
  | codeBlock block => exact ⟨_, .codeBlock block⟩
  | namedValues entries =>
      obtain ⟨values, holds⟩ := holdable entries rfl
      exact ⟨_, .namedValues holds⟩
  | other name => exact ⟨_, .other name⟩

theorem Shows.has {draft : FunctionDraft} {declaration : FieldDeclaration}
    (shows' : Shows draft declaration) {field : FunctionField}
    (known : declaration.field? = some field) : draft.has field = true := by
  cases declaration with
  | namedValues entries =>
      cases known
      obtain ⟨values, same, -⟩ := shows'
      simp [FunctionDraft.has, same]
  | other name => cases known
  | _ =>
      cases known
      simp only [Shows] at shows'
      simp [FunctionDraft.has, shows']

/-- What is on record is not changed by a field that was not. -/
theorem Adds.keeps {draft next : FunctionDraft} {added declaration : FieldDeclaration}
    (adds : Adds draft added next) (shows' : Shows draft declaration) :
    Shows next declaration := by
  by_cases same : added.field? = declaration.field?
  · cases known : declaration.field? with
    | none =>
        cases declaration with
        | other name => trivial
        | _ => cases known
    | some field =>
        have absent := adds.fresh field (same.trans known)
        rw [shows'.has known] at absent
        cases absent
  · cases adds.records <;> cases declaration <;> first | exact (same rfl).elim | exact shows'

section Runs

variable {start final : FunctionDraft} {fields : List FieldDeclaration}

theorem steps_keep (steps : Reader.Steps Adds start fields final)
    {declaration : FieldDeclaration} (shows' : Shows start declaration) :
    Shows final declaration := by
  induction steps with
  | nil => exact shows'
  | cons adds _ induction => exact induction (adds.keeps shows')

theorem steps_show (steps : Reader.Steps Adds start fields final)
    {declaration : FieldDeclaration} (member : declaration ∈ fields) :
    Shows final declaration := by
  induction steps with
  | nil => cases member
  | cons adds later induction =>
      rcases List.mem_cons.mp member with rfl | member
      · exact steps_keep later adds.records.shows
      · exact induction member

theorem steps_has_iff (steps : Reader.Steps Adds start fields final) (field : FunctionField) :
    final.has field = true ↔
      start.has field = true ∨ field ∈ fields.filterMap FieldDeclaration.field? := by
  induction steps with
  | nil => simp
  | @cons draft next final declaration later adds _ induction =>
      rw [induction, adds.records.has_iff, or_assoc]
      simp only [List.mem_filterMap, List.mem_cons, exists_eq_or_imp]

/-- No field is recorded twice. -/
theorem steps_nodup (steps : Reader.Steps Adds start fields final) :
    (fields.filterMap FieldDeclaration.field?).Nodup ∧
      ∀ field ∈ fields.filterMap FieldDeclaration.field?, start.has field = false := by
  induction steps with
  | nil => simp
  | @cons draft next final declaration later adds steps induction =>
      obtain ⟨nodup, fresh⟩ := induction
      cases known : declaration.field? with
      | none =>
          rw [List.filterMap_cons_none known]
          refine ⟨nodup, ?_⟩
          intro field member
          exact adds.records.absent (fresh field member)
      | some first =>
          rw [List.filterMap_cons_some known]
          have recorded : next.has first = true :=
            (adds.records.has_iff first).mpr (Or.inr known)
          refine ⟨List.nodup_cons.mpr ⟨?_, nodup⟩, ?_⟩
          · intro again
            rw [fresh first again] at recorded
            cases recorded
          · intro field member
            rcases List.mem_cons.mp member with rfl | member
            · exact adds.fresh field known
            · exact adds.records.absent (fresh field member)

theorem exists_declared (steps : Reader.Steps Adds {} fields final) {field : FunctionField}
    (recorded : final.has field = true) :
    ∃ declaration ∈ fields, declaration.field? = some field ∧ Shows final declaration := by
  have member : field ∈ fields.filterMap FieldDeclaration.field? := by
    rcases (steps_has_iff steps field).mp recorded with before | member
    · cases field <;> cases before
    · exact member
  obtain ⟨declaration, declared, known⟩ := List.mem_filterMap.mp member
  exact ⟨declaration, declared, known, steps_show steps declared⟩

/-- A value on record has been declared.  Named values are on record in any order, so they
are apart. -/
theorem mem_of_shows (steps : Reader.Steps Adds {} fields final) {declaration : FieldDeclaration}
    {field : FunctionField} (known : declaration.field? = some field)
    (single : field ≠ .namedValues) (shown : Shows final declaration) : declaration ∈ fields := by
  obtain ⟨other, member, otherKnown, otherShown⟩ := exists_declared steps (shown.has known)
  have same : other = declaration := by
    cases field with
    | namedValues => exact (single rfl).elim
    | _ =>
        cases declaration <;> cases known
        cases other <;> cases otherKnown
        cases shown.symm.trans otherShown
        rfl
  rwa [same] at member

theorem exists_steps
    (nodup : (fields.filterMap FieldDeclaration.field?).Nodup)
    (fresh : ∀ field ∈ fields.filterMap FieldDeclaration.field?, start.has field = false)
    (holdable : ∀ entries, .namedValues entries ∈ fields →
      ∃ values : NamedValues, values.Holds entries) :
    ∃ final, Reader.Steps Adds start fields final := by
  induction fields generalizing start with
  | nil => exact ⟨start, .nil⟩
  | cons declaration later induction =>
      obtain ⟨next, records⟩ := exists_records start declaration (by
        intro entries same
        apply holdable entries
        rw [same]
        exact List.mem_cons_self)
      have holdableLater : ∀ entries, .namedValues entries ∈ later →
          ∃ values : NamedValues, values.Holds entries := by
        intro entries member
        exact holdable entries (List.mem_cons_of_mem _ member)
      have adds : Adds start declaration next := by
        refine ⟨?_, records⟩
        intro field known
        exact fresh field (List.mem_filterMap.mpr ⟨declaration, List.mem_cons_self, known⟩)
      have nodupLater : (later.filterMap FieldDeclaration.field?).Nodup :=
        nodup.sublist ((List.sublist_cons_self declaration later).filterMap _)
      have freshLater : ∀ field ∈ later.filterMap FieldDeclaration.field?,
          next.has field = false := by
        intro field member
        rw [← Bool.not_eq_true, records.has_iff, not_or]
        constructor
        · rw [Bool.not_eq_true]
          obtain ⟨other, declared, known⟩ := List.mem_filterMap.mp member
          exact fresh field
            (List.mem_filterMap.mpr ⟨other, List.mem_cons_of_mem _ declared, known⟩)
        · intro known
          rw [List.filterMap_cons_some known] at nodup
          exact (List.nodup_cons.mp nodup).1 member
      obtain ⟨final, steps⟩ := induction nodupLater freshLater holdableLater
      exact ⟨final, .cons adds steps⟩

end Runs

theorem complete_eq_ok_iff {draft : FunctionDraft} {instruction : Instruction} :
    draft.complete = .ok instruction ↔
      draft.id = some instruction.id ∧ draft.size = some instruction.size ∧
        draft.args = some instruction.descriptor ∧ draft.name = some instruction.name ∧
        draft.codeBlock = some instruction.block ∧
        draft.namedValues = some instruction.values := by
  obtain ⟨id, size, args, name, codeBlock, namedValues⟩ := draft
  cases id <;> cases size <;> cases args <;> cases name <;> cases codeBlock <;>
    cases namedValues <;> simp [FunctionDraft.complete]
  constructor
  · intro same
    cases same
    simp
  · intro same
    obtain ⟨rfl, rfl, rfl, rfl, rfl, rfl⟩ := same
    rfl

/-- Where the six fields come once each, a field is given by what it is a field of. -/
theorem eq_of_field?_eq {fields : List FieldDeclaration}
    (nodup : (fields.filterMap FieldDeclaration.field?).Nodup)
    {first second : FieldDeclaration} (firstMember : first ∈ fields)
    (secondMember : second ∈ fields) {field : FunctionField}
    (firstKnown : first.field? = some field) (secondKnown : second.field? = some field) :
    first = second := by
  induction fields with
  | nil => cases firstMember
  | cons declaration later induction =>
      have inLater : ∀ other ∈ later, other.field? = some field →
          field ∈ later.filterMap FieldDeclaration.field? :=
        fun other member known => List.mem_filterMap.mpr ⟨other, member, known⟩
      have nodupLater : (later.filterMap FieldDeclaration.field?).Nodup :=
        nodup.sublist ((List.sublist_cons_self declaration later).filterMap _)
      rcases List.mem_cons.mp firstMember with rfl | firstLater
      · rw [List.filterMap_cons_some firstKnown] at nodup
        rcases List.mem_cons.mp secondMember with rfl | secondLater
        · rfl
        · exact ((List.nodup_cons.mp nodup).1 (inLater _ secondLater secondKnown)).elim
      · rcases List.mem_cons.mp secondMember with rfl | secondLater
        · rw [List.filterMap_cons_some secondKnown] at nodup
          exact ((List.nodup_cons.mp nodup).1 (inLater _ firstLater firstKnown)).elim
        · exact induction nodupLater firstLater secondLater

theorem exists_steps_of_declares {fields : List FieldDeclaration} {instruction : Instruction}
    (declares : Declares fields instruction) :
    ∃ draft, Reader.Steps Adds {} fields draft ∧ draft.complete = .ok instruction := by
  have nodup : (fields.filterMap FieldDeclaration.field?).Nodup :=
    declares.once.nodup_iff.mpr (by decide)
  obtain ⟨entries, declared, holds⟩ := declares.namedValues
  have holdable : ∀ others, .namedValues others ∈ fields →
      ∃ values : NamedValues, values.Holds others := by
    intro others member
    have same := eq_of_field?_eq nodup declared member rfl rfl
    cases same
    exact ⟨instruction.values, holds⟩
  have fresh : ∀ field ∈ fields.filterMap FieldDeclaration.field?,
      ({} : FunctionDraft).has field = false := by
    intro field _
    cases field <;> rfl
  obtain ⟨draft, steps⟩ := exists_steps nodup fresh holdable
  obtain ⟨values, recorded, recordedHolds⟩ := steps_show steps declared
  refine ⟨draft, steps, complete_eq_ok_iff.mpr ?_⟩
  refine ⟨steps_show steps declares.id, steps_show steps declares.size,
    steps_show steps declares.args, steps_show steps declares.name,
    steps_show steps declares.codeBlock, ?_⟩
  rw [recorded, recordedHolds.unique holds]

theorem declares_of_steps {fields : List FieldDeclaration} {draft : FunctionDraft}
    {instruction : Instruction} (steps : Reader.Steps Adds {} fields draft)
    (complete : draft.complete = .ok instruction) : Declares fields instruction := by
  obtain ⟨id, size, args, name, codeBlock, namedValues⟩ := complete_eq_ok_iff.mp complete
  have declared : ∀ field, ∃ declaration ∈ fields,
      declaration.field? = some field ∧ Shows draft declaration := by
    intro field
    apply exists_declared steps
    cases field <;> simp [FunctionDraft.has, id, size, args, name, codeBlock, namedValues]
  exact {
    once := by
      apply (List.perm_ext_iff_of_nodup (steps_nodup steps).1 (by decide)).mpr
      intro field
      constructor
      · intro _
        cases field <;> decide
      · intro _
        obtain ⟨declaration, member, known, -⟩ := declared field
        exact List.mem_filterMap.mpr ⟨declaration, member, known⟩
    id := mem_of_shows steps rfl (by decide) id
    size := mem_of_shows steps rfl (by decide) size
    args := mem_of_shows steps rfl (by decide) args
    name := mem_of_shows steps rfl (by decide) name
    codeBlock := mem_of_shows steps rfl (by decide) codeBlock
    namedValues := by
      obtain ⟨declaration, member, known, shown⟩ := declared .namedValues
      cases declaration <;> cases known
      obtain ⟨values, same, holds⟩ := shown
      cases namedValues.symm.trans same
      exact ⟨_, member, holds⟩ }

/-- The fields of a function declare what the draft that records them completes to. -/
theorem declares_iff {fields : List FieldDeclaration} {instruction : Instruction} :
    Declares fields instruction ↔
      ∃ draft, Reader.Steps Adds {} fields draft ∧ draft.complete = .ok instruction := by
  constructor
  · exact exists_steps_of_declares
  · intro completed
    obtain ⟨draft, steps, complete⟩ := completed
    exact declares_of_steps steps complete

end OpcodeCatalog.Source.Grammar

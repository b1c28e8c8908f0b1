import OpcodeCatalog.Catalog.Review
import OpcodeCatalog.Proofs.NamedValueIndices

/-!
# Reviews and lookups

A lookup finds the first instruction that is wanted, and a review goes over all
of them with the opcodes and names seen so far.  The two agree: an opcode or a
name is remarked on at an instruction exactly if looking it up leads to another
one.  In a catalog without remarks every lookup therefore leads back, and so do
the named values, whose entries stay within one operand.
-/

namespace OpcodeCatalog

namespace Catalog

/-- A lookup answers with the instruction at a place, the first one that is wanted. -/
structure Finds (catalog : Catalog) (wanted : Instruction → Prop)
    (answer : Except Finding Instruction) (place : Nat) : Prop where
  answered : ∃ found, catalog.instructions[place]? = some found ∧ wanted found ∧ answer = .ok found
  first : ∀ earlier < place, ∀ other, catalog.instructions[earlier]? = some other → ¬ wanted other

def FindsId (catalog : Catalog) (id : UInt32) (place : Nat) : Prop :=
  catalog.Finds (fun instruction => instruction.id = id) (catalog.findId id) place

def FindsName (catalog : Catalog) (name : Bytes) (place : Nat) : Prop :=
  catalog.Finds (fun instruction => instruction.name = name) (catalog.findName name) place

variable {catalog : Catalog}

/-- Where an instruction is wanted, the first of them stands somewhere. -/
theorem exists_finds {test : Instruction → Bool} {wanted : Instruction → Prop}
    {answer : Except Finding Instruction} {instruction : Instruction}
    (tests : ∀ instruction, test instruction = true ↔ wanted instruction)
    (answers : ∀ found, catalog.instructions.find? test = some found → answer = .ok found)
    (member : instruction ∈ catalog.instructions) (isWanted : wanted instruction) :
    ∃ place, catalog.Finds wanted answer place := by
  have present : (catalog.instructions.find? test).isSome = true :=
    List.find?_isSome.mpr ⟨instruction, member, (tests instruction).mpr isWanted⟩
  obtain ⟨found, read⟩ := Option.isSome_iff_exists.mp present
  obtain ⟨tested, place, inside, same, first⟩ := List.find?_eq_some_iff_getElem.mp read
  refine ⟨place, ⟨found, ?_, (tests found).mp tested, answers found read⟩, ?_⟩
  · rw [List.getElem?_eq_getElem inside, same]
  · intro earlier before other present isWanted
    obtain ⟨_, rfl⟩ := List.getElem?_eq_some_iff.mp present
    have untested := first earlier before
    rw [(tests _).mpr isWanted] at untested
    cases untested

theorem exists_findsId {instruction : Instruction} (member : instruction ∈ catalog.instructions) :
    ∃ place, catalog.FindsId instruction.id place := by
  refine exists_finds (fun _ => beq_iff_eq) ?_ member rfl
  intro found read
  rw [findId, withId?, read]

theorem exists_findsName {instruction : Instruction}
    (member : instruction ∈ catalog.instructions) :
    ∃ place, catalog.FindsName instruction.name place := by
  refine exists_finds (fun _ => beq_iff_eq) ?_ member rfl
  intro found read
  rw [findName, withName?, read]

/-- A lookup that leads somewhere leads here, if it leads nowhere else. -/
theorem finds_of_nowhere_else {wanted : Instruction → Prop} {answer : Except Finding Instruction}
    {place : Nat} (finds : ∃ found, catalog.Finds wanted answer found)
    (nowhereElse : ¬ ∃ other, other ≠ place ∧ catalog.Finds wanted answer other) :
    catalog.Finds wanted answer place := by
  obtain ⟨found, finds⟩ := finds
  by_cases here : found = place
  · rwa [here] at finds
  · exact (nowhereElse ⟨found, here, finds⟩).elim

/-- A lookup passes over a wanted instruction exactly if an earlier one is wanted too. -/
theorem exists_other_iff {wanted : Instruction → Prop} {answer : Except Finding Instruction}
    {place : Nat} {instruction : Instruction}
    (finds : ∃ found, catalog.Finds wanted answer found)
    (present : catalog.instructions[place]? = some instruction) (isWanted : wanted instruction) :
    (∃ other, other ≠ place ∧ catalog.Finds wanted answer other) ↔
      ∃ earlier ∈ catalog.instructions.take place, wanted earlier := by
  constructor
  · intro found
    obtain ⟨other, different, ⟨earlier, earlierPresent, earlierWanted, _⟩, first⟩ := found
    have before : other < place := by
      apply Nat.lt_of_le_of_ne _ different
      apply Nat.le_of_not_lt
      intro behind
      exact first place behind instruction present isWanted
    refine ⟨earlier, ?_, earlierWanted⟩
    have inside := (List.getElem?_take_of_lt before).trans earlierPresent
    exact List.mem_of_getElem? inside
  · intro found
    obtain ⟨earlier, member, earlierWanted⟩ := found
    obtain ⟨index, before, same⟩ := List.mem_take_iff_getElem.mp member
    obtain ⟨other, finds⟩ := finds
    refine ⟨other, ?_, finds⟩
    intro here
    subst here
    have earlierPresent := List.getElem?_eq_some_iff.mpr ⟨_, same⟩
    have inFront := Nat.lt_of_lt_of_le before (Nat.min_le_left _ _)
    exact finds.first index inFront earlier earlierPresent earlierWanted

/-! ## What a review has seen -/

/-- What is seen of instructions when a review has gone over them. -/
def Seen.ofList (instructions : List Instruction) : Seen :=
  instructions.foldl Seen.add {}

theorem Seen.mem_foldl {instructions : List Instruction} {seen : Seen} :
    (∀ id, id ∈ (instructions.foldl Seen.add seen).ids ↔
        id ∈ seen.ids ∨ ∃ instruction ∈ instructions, instruction.id = id) ∧
      ∀ name, name ∈ (instructions.foldl Seen.add seen).names ↔
        name ∈ seen.names ∨ ∃ instruction ∈ instructions, instruction.name = name := by
  induction instructions generalizing seen with
  | nil => simp
  | cons instruction later induction =>
      simp only [List.foldl_cons, induction.1, induction.2, add, Std.ExtTreeSet.mem_insert,
        Std.LawfulEqCmp.compare_eq_iff_eq, List.mem_cons, exists_eq_or_imp, or_assoc,
        or_left_comm, implies_true, and_self]

theorem Seen.mem_ofList {instructions : List Instruction} :
    (∀ id, id ∈ (Seen.ofList instructions).ids ↔
        ∃ instruction ∈ instructions, instruction.id = id) ∧
      ∀ name, name ∈ (Seen.ofList instructions).names ↔
        ∃ instruction ∈ instructions, instruction.name = name := by
  simp [ofList, mem_foldl]

/-- The findings on the instruction at a place. -/
def reviewAt (catalog : Catalog) (place : Nat) : List Finding :=
  match catalog.instructions[place]? with
  | some instruction =>
    reviewInstruction (Seen.ofList (catalog.instructions.take place)) instruction
  | none => []

theorem reviewBehind_ofList (game : Bytes) (before later : List Instruction) :
    reviewBehind (Seen.ofList before) later =
      (List.range later.length).flatMap fun index =>
        (Catalog.mk game (before ++ later)).reviewAt (before.length + index) := by
  induction later generalizing before with
  | nil => rfl
  | cons instruction later induction =>
      have here : (Catalog.mk game (before ++ instruction :: later)).reviewAt before.length =
          reviewInstruction (Seen.ofList before) instruction := by
        simp [reviewAt]
      have added :
          (Seen.ofList before).add instruction = Seen.ofList (before ++ [instruction]) := by
        simp [Seen.ofList]
      rw [reviewBehind, added, induction, List.length_cons, List.range_succ_eq_map,
        List.flatMap_cons, Nat.add_zero, here, List.flatMap_map]
      simp only [List.append_assoc, List.singleton_append, List.length_append,
        List.length_singleton, Nat.succ_eq_add_one, Nat.add_assoc, Nat.add_comm 1]

/-- A review goes over the instructions in order, one after the other. -/
theorem review_eq (catalog : Catalog) :
    catalog.review = (List.range catalog.size).flatMap catalog.reviewAt := by
  have behind := reviewBehind_ofList catalog.game [] catalog.instructions
  simp only [List.nil_append, List.length_nil, Nat.zero_add] at behind
  exact behind

end Catalog

/-! ## What a review remarks on -/

namespace Instruction

theorem kind_of_mem_reviewValue {instruction : Instruction} {count : Nat} {entry : NamedValue}
    {finding : Finding} (member : finding ∈ instruction.reviewValue count entry) :
    finding.kind = .slotOutOfRange ∨ finding.kind = .crossSlot := by
  have outOfRange : ∀ slot : UInt32, finding ∈ (if slot.toNat < count then ([] : List Finding)
      else [.slotOutOfRange entry.name.name slot instruction.displayName count]) →
      finding.kind = .slotOutOfRange := by
    intro slot outside
    split at outside
    · cases outside
    · rw [List.mem_singleton.mp outside]
      rfl
  unfold reviewValue at member
  dsimp only at member
  split at member
  · exact .inl (outOfRange _ member)
  · rcases List.mem_append.mp member with slots | cross
    · rcases List.mem_append.mp slots with valueSlot | nameSlot
      · exact .inl (outOfRange _ valueSlot)
      · exact .inl (outOfRange _ nameSlot)
    · rw [List.mem_singleton.mp cross]
      exact .inr rfl

theorem reviewValue_eq_nil_iff {instruction : Instruction} {count : Nat} {entry : NamedValue} :
    instruction.reviewValue count entry = [] ↔
      entry.value.slot = entry.name.slot ∧ entry.value.slot.toNat < count := by
  unfold reviewValue
  by_cases same : entry.value.slot = entry.name.slot
  · simp [same]
  · simp [same]

theorem kind_of_mem_reviewValues {instruction : Instruction} {finding : Finding}
    (member : finding ∈ instruction.reviewValues) :
    finding.kind = .slotOutOfRange ∨ finding.kind = .crossSlot := by
  obtain ⟨entry, _, member⟩ := List.mem_flatMap.mp member
  exact kind_of_mem_reviewValue member

theorem reviewValues_eq_nil_iff {instruction : Instruction} :
    instruction.reviewValues = [] ↔ ∀ entry ∈ instruction.values.entries,
      entry.value.slot = entry.name.slot ∧
        entry.value.slot.toNat < instruction.operands.length := by
  unfold reviewValues
  simp only [List.flatMap_eq_nil_iff, reviewValue_eq_nil_iff]

/-- Where no entry leads from one slot to another, names and values lead back to each other. -/
theorem nameOf?_eq_some_iff_valueOf {instruction : Instruction}
    (inverse : instruction.values.Inverse)
    (within : ∀ entry ∈ instruction.values.entries, entry.value.slot = entry.name.slot)
    (slot : UInt32) (value : Int32) (name : Bytes) :
    instruction.nameOf? slot value = some name ↔ instruction.valueOf slot name = .ok value := by
  have found : instruction.valueOf slot name = .ok value ↔
      instruction.values.valueOf? slot name = some value := by
    unfold valueOf
    cases instruction.values.valueOf? slot name <;> simp
  rw [found, nameOf?, NamedValues.nameOf?_eq_some_iff, inverse.valueOf?_eq_some_iff]
  constructor
  · intro present
    obtain ⟨nameSlot, member⟩ := present
    obtain rfl : slot = nameSlot := within _ member
    exact ⟨slot, member⟩
  · intro present
    obtain ⟨valueSlot, member⟩ := present
    obtain rfl : valueSlot = slot := within _ member
    exact ⟨valueSlot, member⟩

end Instruction

namespace Catalog

variable {catalog : Catalog} {place : Nat} {instruction : Instruction}

theorem reviewAt_of_getElem? (present : catalog.instructions[place]? = some instruction) :
    catalog.reviewAt place =
      reviewInstruction (Seen.ofList (catalog.instructions.take place)) instruction := by
  rw [reviewAt, present]

theorem kind_mem_reviewInstruction (seen : Seen) (instruction : Instruction) :
    (FindingKind.duplicateOpcode ∈ (reviewInstruction seen instruction).map Finding.kind ↔
        instruction.id ∈ seen.ids) ∧
      (FindingKind.duplicateName ∈ (reviewInstruction seen instruction).map Finding.kind ↔
        instruction.name ≠ [] ∧ instruction.name ∈ seen.names) := by
  have values : FindingKind.duplicateOpcode ∉ instruction.reviewValues.map Finding.kind ∧
      FindingKind.duplicateName ∉ instruction.reviewValues.map Finding.kind := by
    constructor <;>
    · intro member
      obtain ⟨finding, member, kind⟩ := List.mem_map.mp member
      rcases Instruction.kind_of_mem_reviewValues member with slot | cross
      · rw [slot] at kind
        cases kind
      · rw [cross] at kind
        cases kind
  unfold reviewInstruction
  simp only [List.map_append, List.mem_append, values, or_false]
  constructor
  · by_cases again : instruction.id ∈ seen.ids
    · simp [again, Finding.kind]
    · by_cases named : instruction.name ≠ [] ∧ instruction.name ∈ seen.names
      · simp [again, named, Finding.kind]
      · simp [again, named]
  · by_cases named : instruction.name ≠ [] ∧ instruction.name ∈ seen.names
    · simp [named, Finding.kind]
    · by_cases again : instruction.id ∈ seen.ids
      · simp [again, named, Finding.kind]
      · simp [again, named]

/-- An opcode is remarked on exactly if looking it up leads to another instruction. -/
theorem duplicateOpcode_mem_iff (present : catalog.instructions[place]? = some instruction) :
    FindingKind.duplicateOpcode ∈ (catalog.reviewAt place).map Finding.kind ↔
      ∃ other, other ≠ place ∧ catalog.FindsId instruction.id other := by
  rw [reviewAt_of_getElem? present, (kind_mem_reviewInstruction _ _).1, Seen.mem_ofList.1]
  exact (exists_other_iff (exists_findsId (List.mem_of_getElem? present)) present rfl).symm

/-- A name is remarked on exactly if looking it up leads to another instruction. -/
theorem duplicateName_mem_iff (present : catalog.instructions[place]? = some instruction) :
    FindingKind.duplicateName ∈ (catalog.reviewAt place).map Finding.kind ↔
      instruction.name ≠ [] ∧
        ∃ other, other ≠ place ∧ catalog.FindsName instruction.name other := by
  rw [reviewAt_of_getElem? present, (kind_mem_reviewInstruction _ _).2, Seen.mem_ofList.2]
  exact and_congr_right fun _ =>
    (exists_other_iff (exists_findsName (List.mem_of_getElem? present)) present rfl).symm

/-- A catalog in which every lookup leads back to the instruction or the named value that it
was made with. -/
structure LeadsBack (catalog : Catalog) : Prop where
  id : ∀ place instruction, catalog.instructions[place]? = some instruction →
    catalog.FindsId instruction.id place
  name : ∀ place instruction, catalog.instructions[place]? = some instruction →
    instruction.name ≠ [] → catalog.FindsName instruction.name place
  slots : ∀ instruction ∈ catalog.instructions, ∀ entry ∈ instruction.values.entries,
    entry.value.slot.toNat < instruction.operands.length ∧
      entry.name.slot.toNat < instruction.operands.length
  values : ∀ instruction ∈ catalog.instructions, ∀ slot value name,
    instruction.nameOf? slot value = some name ↔ instruction.valueOf slot name = .ok value

theorem reviewAt_eq_nil (clean : catalog.review = [])
    (present : catalog.instructions[place]? = some instruction) : catalog.reviewAt place = [] := by
  rw [review_eq, List.flatMap_eq_nil_iff] at clean
  apply clean
  exact List.mem_range.mpr (List.getElem?_eq_some_iff.mp present).1

theorem leadsBack_of_clean
    (inverse : ∀ instruction ∈ catalog.instructions, instruction.values.Inverse)
    (clean : catalog.review = []) : catalog.LeadsBack := by
  have entries : ∀ instruction ∈ catalog.instructions, ∀ entry ∈ instruction.values.entries,
      entry.value.slot = entry.name.slot ∧
        entry.value.slot.toNat < instruction.operands.length := by
    intro instruction member
    obtain ⟨place, present⟩ := List.mem_iff_getElem?.mp member
    have nothing := reviewAt_eq_nil clean present
    rw [reviewAt_of_getElem? present, reviewInstruction, List.append_eq_nil_iff] at nothing
    exact Instruction.reviewValues_eq_nil_iff.mp nothing.2
  constructor
  · intro place instruction present
    have silent := (duplicateOpcode_mem_iff present).not
    rw [reviewAt_eq_nil clean present] at silent
    exact finds_of_nowhere_else (exists_findsId (List.mem_of_getElem? present))
      (silent.mp List.not_mem_nil)
  · intro place instruction present named
    have silent := (duplicateName_mem_iff present).not
    rw [reviewAt_eq_nil clean present] at silent
    exact finds_of_nowhere_else (exists_findsName (List.mem_of_getElem? present))
      fun elsewhere => silent.mp List.not_mem_nil ⟨named, elsewhere⟩
  · intro instruction member entry entryMember
    obtain ⟨same, inside⟩ := entries instruction member entry entryMember
    rw [← same]
    exact ⟨inside, inside⟩
  · intro instruction member
    apply Instruction.nameOf?_eq_some_iff_valueOf (inverse instruction member)
    intro entry entryMember
    exact (entries instruction member entry entryMember).1

/-- A review reports on one instruction after the other: its opcode, or its name if it has
one, exactly if looking it up leads to another instruction.  Where nothing is reported and the
named values were inserted one by one, all lookups lead back. -/
theorem review_agrees_with_lookups (catalog : Catalog) (log : Log) :
    (catalog.reportReview log).2.entries = log.entries ++
        ((List.range catalog.size).flatMap catalog.reviewAt).map (·.diagnostic) ∧
      (∀ place instruction, catalog.instructions[place]? = some instruction →
        (FindingKind.duplicateOpcode ∈ (catalog.reviewAt place).map Finding.kind ↔
            ∃ other, other ≠ place ∧ catalog.FindsId instruction.id other) ∧
          (FindingKind.duplicateName ∈ (catalog.reviewAt place).map Finding.kind ↔
            instruction.name ≠ [] ∧
              ∃ other, other ≠ place ∧ catalog.FindsName instruction.name other)) ∧
      ((∀ instruction ∈ catalog.instructions, ∃ insertions,
          instruction.values = NamedValues.afterRun insertions) →
        (catalog.reportReview log).1 = 0 → catalog.LeadsBack) := by
  refine ⟨?_, ?_, ?_⟩
  · rw [← review_eq]
    rfl
  · intro place instruction present
    exact ⟨duplicateOpcode_mem_iff present, duplicateName_mem_iff present⟩
  · intro built none
    have clean : catalog.review = [] := List.length_eq_zero_iff.mp none
    apply leadsBack_of_clean _ clean
    intro instruction member
    obtain ⟨insertions, same⟩ := built instruction member
    rw [same]
    exact NamedValues.inverse_afterRun insertions

/-- Two instructions without a name and one whose operands are named in two slots. -/
theorem review_agrees_with_lookups_of_clean :
    let switch : Instruction := ⟨4, 12, ascii "ii", ascii "switch", .noBlock, .afterRun
      [.within 0 (-1) (ascii "off"), .within 1 7 (ascii "off"), .within 0 (-1) (ascii "on")]⟩
    let catalog : Catalog :=
      ⟨[], [⟨2, 4, [], [], .begins, .empty⟩, switch, ⟨3, 4, [], [], .ends, .empty⟩]⟩
    (∀ instruction ∈ catalog.instructions, ∃ insertions,
        instruction.values = NamedValues.afterRun insertions) ∧
      (catalog.reportReview {}).1 = 0 ∧ catalog.LeadsBack := by
  intro switch catalog
  have built : ∀ instruction ∈ catalog.instructions, ∃ insertions,
      instruction.values = NamedValues.afterRun insertions := by
    simp only [catalog, List.forall_mem_cons, List.not_mem_nil, false_implies, implies_true,
      and_true]
    exact ⟨⟨[], rfl⟩, ⟨_, rfl⟩, ⟨[], rfl⟩⟩
  have clean : (catalog.reportReview {}).1 = 0 := by decide +kernel
  exact ⟨built, clean, (review_agrees_with_lookups catalog {}).2.2 built clean⟩

end Catalog

end OpcodeCatalog

import OpcodeCatalog.NamedValues
import Mathlib.Data.List.Nodup

/-!
# The two indices of named values

Named values are kept under their values and under their names.  `Inverse` says
that the two indices hold the same bindings.  It is true of no named values at
all, and every insertion keeps it, so whatever a run of insertions leaves
behind can be read as one list of entries, `entries`, in which no value and no
name comes twice.
-/

namespace OpcodeCatalog

namespace NamedValues

/-- Each index leads back to where the other one leads from. -/
def Inverse (values : NamedValues) : Prop :=
  ∀ (value : SlotValue) (name : SlotName),
    values.byValue[value]? = some name ↔ values.byName[name]? = some value

/-- An entry of the index by values. -/
theorem mem_entries {values : NamedValues} {entry : NamedValue} :
    entry ∈ values.entries ↔ values.byValue[entry.value]? = some entry.name := by
  rw [← Std.ExtTreeMap.mem_toList_iff_getElem?_eq_some]
  constructor
  · intro member
    obtain ⟨pair, pairMember, rfl⟩ := List.mem_map.mp member
    exact pairMember
  · intro member
    exact List.mem_map.mpr ⟨(entry.value, entry.name), member, rfl⟩

theorem mem_byValue_iff {values : NamedValues} {value : SlotValue} :
    value ∈ values.byValue ↔ ∃ name, ⟨value, name⟩ ∈ values.entries := by
  rw [Std.ExtTreeMap.mem_iff_isSome_getElem?, Option.isSome_iff_exists]
  simp only [mem_entries]

theorem entries_nodup_values (values : NamedValues) :
    (values.entries.map NamedValue.value).Nodup := by
  have keys := Std.ExtTreeMap.distinct_keys_toList (t := values.byValue)
  simp only [entries, List.map_map, List.Nodup, List.pairwise_map]
  apply keys.imp
  intro first second distinct same
  exact distinct (Std.LawfulEqCmp.compare_eq_iff_eq.mpr same)

theorem entries_nodup (values : NamedValues) : values.entries.Nodup :=
  values.entries_nodup_values.of_map

/-- The entries go up by slot, and within a slot by signed value. -/
theorem entries_ascending (values : NamedValues) :
    values.entries.Pairwise fun first second =>
      first.value.slot < second.value.slot ∨
        first.value.slot = second.value.slot ∧ first.value.value < second.value.value := by
  unfold entries
  rw [List.pairwise_map]
  apply Std.ExtTreeMap.ordered_keys_toList.imp
  intro first second before
  rcases Ordering.then_eq_lt.mp before with slots | ⟨slots, ordered⟩
  · exact .inl (Std.compare_eq_lt.mp slots)
  · exact .inr ⟨Std.compare_eq_iff_eq.mp slots, Std.compare_eq_lt.mp ordered⟩

@[simp] theorem length_entries (values : NamedValues) :
    values.entries.length = values.size := by
  simp [entries, size]

theorem inverse_empty : empty.Inverse := by
  intro value name
  simp [empty]

namespace Inverse

variable {values : NamedValues}

theorem mem_entries (inverse : values.Inverse) {entry : NamedValue} :
    entry ∈ values.entries ↔ values.byName[entry.name]? = some entry.value :=
  NamedValues.mem_entries.trans (inverse entry.value entry.name)

theorem mem_byName_iff (inverse : values.Inverse) {name : SlotName} :
    name ∈ values.byName ↔ ∃ value, ⟨value, name⟩ ∈ values.entries := by
  rw [Std.ExtTreeMap.mem_iff_isSome_getElem?, Option.isSome_iff_exists]
  simp only [inverse.mem_entries]

/-- A name determines the value bound to it. -/
theorem entries_nodup_names (inverse : values.Inverse) :
    (values.entries.map NamedValue.name).Nodup := by
  refine List.Nodup.map_on ?_ values.entries_nodup
  intro first firstMember second secondMember same
  have firstBound := inverse.mem_entries.mp firstMember
  have secondBound := inverse.mem_entries.mp secondMember
  rw [same, secondBound, Option.some_inj] at firstBound
  cases first; cases second
  cases same
  cases firstBound
  rfl

/-- The index by names holds as many bindings as the index by values. -/
theorem size_byName (inverse : values.Inverse) : values.byName.size = values.size := by
  have names : (values.byName.toList.map Prod.fst).Nodup := by
    rw [Std.ExtTreeMap.map_fst_toList_eq_keys]
    exact Std.ExtTreeMap.nodup_keys
  have turned :
      (values.byName.toList.map fun (name, value) => (⟨value, name⟩ : NamedValue)).Perm
        values.entries := by
    refine (List.perm_ext_iff_of_nodup ?_ values.entries_nodup).mpr ?_
    · apply List.Nodup.of_map NamedValue.name
      simpa only [List.map_map, Function.comp_def] using names
    · intro entry
      rw [inverse.mem_entries, ← Std.ExtTreeMap.mem_toList_iff_getElem?_eq_some]
      constructor
      · intro member
        obtain ⟨pair, pairMember, rfl⟩ := List.mem_map.mp member
        exact pairMember
      · intro member
        exact List.mem_map.mpr ⟨(entry.name, entry.value), member, rfl⟩
  have lengths := turned.length_eq
  simpa using lengths

end Inverse

/-- The name found for a value is that of its entry, in whatever slot the name is. -/
theorem nameOf?_eq_some_iff {values : NamedValues} {slot : UInt32} {value : Int32}
    {name : Bytes} :
    values.nameOf? slot value = some name ↔
      ∃ nameSlot, ⟨⟨slot, value⟩, ⟨nameSlot, name⟩⟩ ∈ values.entries := by
  simp only [mem_entries, nameOf?, Option.map_eq_some_iff]
  constructor
  · intro present
    obtain ⟨⟨nameSlot, bound⟩, found, rfl⟩ := present
    exact ⟨nameSlot, found⟩
  · intro present
    obtain ⟨nameSlot, found⟩ := present
    exact ⟨⟨nameSlot, name⟩, found, rfl⟩

theorem Inverse.valueOf?_eq_some_iff {values : NamedValues} (inverse : values.Inverse)
    {slot : UInt32} {name : Bytes} {value : Int32} :
    values.valueOf? slot name = some value ↔
      ∃ valueSlot, ⟨⟨valueSlot, value⟩, ⟨slot, name⟩⟩ ∈ values.entries := by
  simp only [inverse.mem_entries, valueOf?, Option.map_eq_some_iff]
  constructor
  · intro present
    obtain ⟨⟨valueSlot, bound⟩, found, rfl⟩ := present
    exact ⟨valueSlot, found⟩
  · intro present
    obtain ⟨valueSlot, found⟩ := present
    exact ⟨⟨valueSlot, value⟩, found, rfl⟩

/-- The entry of an insertion is refused if its value or its name has an entry;
the value is looked at first. -/
theorem insert_fst (values : NamedValues) (entry : NamedValue) :
    (values.insert entry).1 =
      if entry.value ∈ values.byValue then .duplicateValue
      else if entry.name ∈ values.byName then .duplicateName
      else .inserted := by
  unfold insert
  split
  · rfl
  · split <;> rfl

theorem insert_fst_eq_duplicateValue_iff {values : NamedValues} {entry : NamedValue} :
    (values.insert entry).1 = .duplicateValue ↔ entry.value ∈ values.byValue := by
  rw [insert_fst]
  by_cases boundValue : entry.value ∈ values.byValue
  · simp [boundValue]
  · by_cases boundName : entry.name ∈ values.byName
    · simp [boundValue, boundName]
    · simp [boundValue, boundName]

theorem insert_fst_eq_duplicateName_iff {values : NamedValues} {entry : NamedValue} :
    (values.insert entry).1 = .duplicateName ↔
      entry.value ∉ values.byValue ∧ entry.name ∈ values.byName := by
  rw [insert_fst]
  by_cases boundValue : entry.value ∈ values.byValue
  · simp [boundValue]
  · by_cases boundName : entry.name ∈ values.byName
    · simp [boundValue, boundName]
    · simp [boundValue, boundName]

theorem insert_fst_eq_inserted_iff {values : NamedValues} {entry : NamedValue} :
    (values.insert entry).1 = .inserted ↔
      entry.value ∉ values.byValue ∧ entry.name ∉ values.byName := by
  rw [insert_fst]
  by_cases boundValue : entry.value ∈ values.byValue
  · simp [boundValue]
  · by_cases boundName : entry.name ∈ values.byName
    · simp [boundValue, boundName]
    · simp [boundValue, boundName]

theorem insert_refused {values : NamedValues} {entry : NamedValue}
    (refused : (values.insert entry).1 ≠ .inserted) : (values.insert entry).2 = values := by
  rw [Ne, insert_fst_eq_inserted_iff] at refused
  unfold insert
  split
  · rfl
  · next freeValue =>
    split
    · rfl
    · next freeName => exact (refused ⟨freeValue, freeName⟩).elim

/-- An insertion that is not refused binds both sides, of which neither was bound. -/
theorem insert_inserted {values : NamedValues} {entry : NamedValue}
    (accepted : (values.insert entry).1 = .inserted) :
    entry.value ∉ values.byValue ∧ entry.name ∉ values.byName ∧
      (values.insert entry).2 =
        { byValue := values.byValue.insert entry.value entry.name
          byName := values.byName.insert entry.name entry.value } := by
  obtain ⟨freeValue, freeName⟩ := insert_fst_eq_inserted_iff.mp accepted
  refine ⟨freeValue, freeName, ?_⟩
  unfold insert
  rw [if_neg freeValue, if_neg freeName]

theorem getElem?_byValue_insert {values : NamedValues} {entry : NamedValue}
    (accepted : (values.insert entry).1 = .inserted) (value : SlotValue) (name : SlotName) :
    (values.insert entry).2.byValue[value]? = some name ↔
      ⟨value, name⟩ = entry ∨ values.byValue[value]? = some name := by
  obtain ⟨freeValue, -, result⟩ := insert_inserted accepted
  obtain ⟨entryValue, entryName⟩ := entry
  simp only [result, Std.ExtTreeMap.getElem?_insert, Std.LawfulEqCmp.compare_eq_iff_eq,
    NamedValue.mk.injEq]
  by_cases same : entryValue = value
  · subst same
    simp [Std.ExtTreeMap.getElem?_eq_none freeValue, eq_comm]
  · simp [same, Ne.symm same]

theorem getElem?_byName_insert {values : NamedValues} {entry : NamedValue}
    (accepted : (values.insert entry).1 = .inserted) (value : SlotValue) (name : SlotName) :
    (values.insert entry).2.byName[name]? = some value ↔
      ⟨value, name⟩ = entry ∨ values.byName[name]? = some value := by
  obtain ⟨-, freeName, result⟩ := insert_inserted accepted
  obtain ⟨entryValue, entryName⟩ := entry
  simp only [result, Std.ExtTreeMap.getElem?_insert, Std.LawfulEqCmp.compare_eq_iff_eq,
    NamedValue.mk.injEq]
  by_cases same : entryName = name
  · subst same
    simp [Std.ExtTreeMap.getElem?_eq_none freeName, eq_comm]
  · simp [same, Ne.symm same]

/-- One insertion keeps the indices inverse to each other, whatever its outcome. -/
theorem Inverse.insert {values : NamedValues} (inverse : values.Inverse) (entry : NamedValue) :
    (values.insert entry).2.Inverse := by
  intro value name
  by_cases accepted : (values.insert entry).1 = .inserted
  · rw [getElem?_byValue_insert accepted, getElem?_byName_insert accepted, inverse value name]
  · rw [insert_refused accepted]
    exact inverse value name

/-- What an insertion adds to the entries. -/
theorem entries_insert_perm {values : NamedValues} {entry : NamedValue}
    (accepted : (values.insert entry).1 = .inserted) :
    (values.insert entry).2.entries.Perm (entry :: values.entries) := by
  have fresh : entry ∉ values.entries := by
    intro member
    exact (insert_inserted accepted).1 (mem_byValue_iff.mpr ⟨entry.name, member⟩)
  apply (List.perm_ext_iff_of_nodup (entries_nodup _)
    (List.nodup_cons.mpr ⟨fresh, values.entries_nodup⟩)).mpr
  intro other
  rw [mem_entries, getElem?_byValue_insert accepted, List.mem_cons, mem_entries]

theorem Inverse.insertAll {values : NamedValues} (inverse : values.Inverse)
    (entries : List NamedValue) : (values.insertAll entries).Inverse := by
  induction entries generalizing values with
  | nil => exact inverse
  | cons entry entries induction =>
      exact induction (inverse.insert entry)

/-- The indices hold exactly the given entries, of which no two share a value and no two
share a name. -/
structure Holds (values : NamedValues) (entries : List NamedValue) : Prop where
  nodup_values : (entries.map NamedValue.value).Nodup
  nodup_names : (entries.map NamedValue.name).Nodup
  byValue_iff : ∀ (value : SlotValue) (name : SlotName),
    values.byValue[value]? = some name ↔ ⟨value, name⟩ ∈ entries
  byName_iff : ∀ (value : SlotValue) (name : SlotName),
    values.byName[name]? = some value ↔ ⟨value, name⟩ ∈ entries

theorem Inverse.holds {values : NamedValues} (inverse : values.Inverse) :
    values.Holds values.entries where
  nodup_values := values.entries_nodup_values
  nodup_names := inverse.entries_nodup_names
  byValue_iff := by
    intro value name
    rw [NamedValues.mem_entries]
  byName_iff := by
    intro value name
    rw [inverse.mem_entries]

namespace Holds

variable {values other : NamedValues} {entries : List NamedValue} {entry : NamedValue}

theorem empty : NamedValues.empty.Holds [] := by
  constructor <;> simp [NamedValues.empty]

theorem perm {reordered : List NamedValue} (holds : values.Holds entries)
    (same : entries.Perm reordered) : values.Holds reordered where
  nodup_values := (same.map _).nodup_iff.mp holds.nodup_values
  nodup_names := (same.map _).nodup_iff.mp holds.nodup_names
  byValue_iff := fun value name => (holds.byValue_iff value name).trans same.mem_iff
  byName_iff := fun value name => (holds.byName_iff value name).trans same.mem_iff

/-- The entries determine the named values. -/
theorem unique (holds : values.Holds entries) (alike : other.Holds entries) :
    values = other := by
  obtain ⟨byValue, byName⟩ := values
  obtain ⟨otherByValue, otherByName⟩ := other
  have sameByValue : byValue = otherByValue := by
    apply Std.ExtTreeMap.ext_getElem?
    intro value
    apply Option.ext
    intro name
    exact (holds.byValue_iff value name).trans (alike.byValue_iff value name).symm
  have sameByName : byName = otherByName := by
    apply Std.ExtTreeMap.ext_getElem?
    intro name
    apply Option.ext
    intro value
    exact (holds.byName_iff value name).trans (alike.byName_iff value name).symm
  rw [sameByValue, sameByName]

theorem mem_byValue_iff (holds : values.Holds entries) {value : SlotValue} :
    value ∈ values.byValue ↔ value ∈ entries.map NamedValue.value := by
  rw [Std.ExtTreeMap.mem_iff_isSome_getElem?, Option.isSome_iff_exists]
  simp only [holds.byValue_iff, List.mem_map]
  constructor
  · intro found
    obtain ⟨name, member⟩ := found
    exact ⟨_, member, rfl⟩
  · intro found
    obtain ⟨entry, member, rfl⟩ := found
    exact ⟨entry.name, member⟩

theorem mem_byName_iff (holds : values.Holds entries) {name : SlotName} :
    name ∈ values.byName ↔ name ∈ entries.map NamedValue.name := by
  rw [Std.ExtTreeMap.mem_iff_isSome_getElem?, Option.isSome_iff_exists]
  simp only [holds.byName_iff, List.mem_map]
  constructor
  · intro found
    obtain ⟨value, member⟩ := found
    exact ⟨_, member, rfl⟩
  · intro found
    obtain ⟨entry, member, rfl⟩ := found
    exact ⟨entry.value, member⟩

/-- An entry is accepted where it shares neither side with one that is held. -/
theorem inserted_iff (holds : values.Holds entries) :
    (values.insert entry).1 = .inserted ↔
      entry.value ∉ entries.map NamedValue.value ∧ entry.name ∉ entries.map NamedValue.name := by
  rw [insert_fst_eq_inserted_iff, holds.mem_byValue_iff, holds.mem_byName_iff]

/-- Where no two entries share a side, those that are held leave room for any other one. -/
theorem inserted_of_distinct {later : List NamedValue} (holds : values.Holds entries)
    (distinctValues : ((entries ++ entry :: later).map NamedValue.value).Nodup)
    (distinctNames : ((entries ++ entry :: later).map NamedValue.name).Nodup) :
    (values.insert entry).1 = .inserted := by
  rw [holds.inserted_iff]
  simp only [List.map_append, List.map_cons, List.nodup_middle, List.nodup_cons,
    List.mem_append, not_or] at distinctValues distinctNames
  exact ⟨distinctValues.1.1, distinctNames.1.1⟩

theorem insert (holds : values.Holds entries) (accepted : (values.insert entry).1 = .inserted) :
    (values.insert entry).2.Holds (entry :: entries) where
  nodup_values := List.nodup_cons.mpr
    ⟨(holds.inserted_iff.mp accepted).1, holds.nodup_values⟩
  nodup_names := List.nodup_cons.mpr
    ⟨(holds.inserted_iff.mp accepted).2, holds.nodup_names⟩
  byValue_iff := by
    intro value name
    rw [getElem?_byValue_insert accepted, holds.byValue_iff, List.mem_cons]
  byName_iff := by
    intro value name
    rw [getElem?_byName_insert accepted, holds.byName_iff, List.mem_cons]

end Holds

/-- What every collection of named values promises that insertions can lead to. -/
structure Consistent (values : NamedValues) : Prop where
  inverse : values.Inverse
  size_byName : values.byName.size = values.size
  length_entries : values.entries.length = values.size
  nodup_values : (values.entries.map NamedValue.value).Nodup
  nodup_names : (values.entries.map NamedValue.name).Nodup
  nameOf?_eq_some_iff : ∀ slot value name, values.nameOf? slot value = some name ↔
    ∃ nameSlot, ⟨⟨slot, value⟩, ⟨nameSlot, name⟩⟩ ∈ values.entries
  valueOf?_eq_some_iff : ∀ slot name value, values.valueOf? slot name = some value ↔
    ∃ valueSlot, ⟨⟨valueSlot, value⟩, ⟨slot, name⟩⟩ ∈ values.entries

theorem Inverse.consistent {values : NamedValues} (inverse : values.Inverse) :
    values.Consistent where
  inverse := inverse
  size_byName := inverse.size_byName
  length_entries := values.length_entries
  nodup_values := values.entries_nodup_values
  nodup_names := inverse.entries_nodup_names
  nameOf?_eq_some_iff := fun _ _ _ => nameOf?_eq_some_iff
  valueOf?_eq_some_iff := fun _ _ _ => inverse.valueOf?_eq_some_iff

/-- A binding to be made, within one slot or from the value of one slot to the name
of another. -/
inductive Insertion where
  | within (slot : UInt32) (value : Int32) (name : Bytes)
  | across (valueSlot : UInt32) (value : Int32) (nameSlot : UInt32) (name : Bytes)

namespace Insertion

def entry : Insertion → NamedValue
  | within slot value name => ⟨⟨slot, value⟩, ⟨slot, name⟩⟩
  | across valueSlot value nameSlot name => ⟨⟨valueSlot, value⟩, ⟨nameSlot, name⟩⟩

def perform (insertion : Insertion) (values : NamedValues) : InsertOutcome × NamedValues :=
  match insertion with
  | within slot value name => values.insertWithin slot value name
  | across valueSlot value nameSlot name =>
    values.insert ⟨⟨valueSlot, value⟩, ⟨nameSlot, name⟩⟩

theorem perform_eq (insertion : Insertion) (values : NamedValues) :
    insertion.perform values = values.insert insertion.entry := by
  cases insertion <;> rfl

end Insertion

/-- The named values that a run of insertions makes out of none. -/
def afterRun (insertions : List Insertion) : NamedValues :=
  insertions.foldl (fun values insertion => (insertion.perform values).2) empty

theorem afterRun_eq (insertions : List Insertion) :
    afterRun insertions = empty.insertAll (insertions.map Insertion.entry) := by
  simp only [afterRun, insertAll, List.foldl_map, Insertion.perform_eq]

theorem inverse_afterRun (insertions : List Insertion) : (afterRun insertions).Inverse := by
  rw [afterRun_eq]
  exact inverse_empty.insertAll _

/-- How an entry that is offered to named values is answered, and what is left behind:
the entry is added on both sides, or nothing changes. -/
structure Answered (values : NamedValues) (entry : NamedValue)
    (answer : InsertOutcome × NamedValues) : Prop where
  duplicateValue_iff : answer.1 = .duplicateValue ↔ ∃ name, ⟨entry.value, name⟩ ∈ values.entries
  duplicateName_iff : answer.1 = .duplicateName ↔
    (¬∃ name, ⟨entry.value, name⟩ ∈ values.entries) ∧
      ∃ value, ⟨value, entry.name⟩ ∈ values.entries
  inserted_iff : answer.1 = .inserted ↔
    (¬∃ name, ⟨entry.value, name⟩ ∈ values.entries) ∧
      ¬∃ value, ⟨value, entry.name⟩ ∈ values.entries
  entries_perm : answer.1 = .inserted → answer.2.entries.Perm (entry :: values.entries)
  byValue_iff : answer.1 = .inserted → ∀ (value : SlotValue) (name : SlotName),
    answer.2.byValue[value]? = some name ↔
      ⟨value, name⟩ = entry ∨ values.byValue[value]? = some name
  byName_iff : answer.1 = .inserted → ∀ (value : SlotValue) (name : SlotName),
    answer.2.byName[name]? = some value ↔
      ⟨value, name⟩ = entry ∨ values.byName[name]? = some value
  unchanged : answer.1 ≠ .inserted → answer.2 = values

theorem Inverse.answered {values : NamedValues} (inverse : values.Inverse)
    (entry : NamedValue) : values.Answered entry (values.insert entry) where
  duplicateValue_iff := insert_fst_eq_duplicateValue_iff.trans mem_byValue_iff
  duplicateName_iff := by
    rw [insert_fst_eq_duplicateName_iff, mem_byValue_iff, inverse.mem_byName_iff]
  inserted_iff := by
    rw [insert_fst_eq_inserted_iff, mem_byValue_iff, inverse.mem_byName_iff]
  entries_perm := entries_insert_perm
  byValue_iff := getElem?_byValue_insert
  byName_iff := getElem?_byName_insert
  unchanged := insert_refused

/-- Whatever insertions were made, the two indices hold the same bindings, each value
and each name of a slot at most once, and the next insertion is answered by them. -/
theorem afterRun_consistent_and_answered (insertions : List Insertion) :
    (afterRun insertions).Consistent ∧
      ∀ insertion : Insertion,
        (afterRun insertions).Answered insertion.entry
          (insertion.perform (afterRun insertions)) := by
  have inverse : (afterRun insertions).Inverse := by
    rw [afterRun_eq]
    exact inverse_empty.insertAll _
  refine ⟨inverse.consistent, ?_⟩
  intro insertion
  rw [insertion.perform_eq]
  exact inverse.answered insertion.entry

end NamedValues

end OpcodeCatalog

import OpcodeCatalog.Proofs.NamedValueIndices

/-!
# The order of insertions

Entries of which no two share a value and no two share a name may be bound in any
order: none is refused, and the named values that hold them come out equal.
Named values are compared by one of their two indices.  Where both sides were made
by insertions that is enough, because each index determines the other: no question
and no further insertion tells equal ones apart.
-/

namespace OpcodeCatalog.NamedValues

/-- How insertions are answered that are made one after the other. -/
def outcomes (values : NamedValues) : List Insertion → List InsertOutcome
  | [] => []
  | insertion :: later => (insertion.perform values).1 :: outcomes (insertion.perform values).2 later

/-- Insertions of entries that share no side, neither with each other nor with those that are
held, are all accepted. -/
theorem Holds.accepts {values : NamedValues} {held : List NamedValue} {insertions : List Insertion}
    (holds : values.Holds held)
    (distinctValues : ((held ++ insertions.map Insertion.entry).map NamedValue.value).Nodup)
    (distinctNames : ((held ++ insertions.map Insertion.entry).map NamedValue.name).Nodup) :
    values.outcomes insertions = List.replicate insertions.length .inserted ∧
      (values.insertAll (insertions.map Insertion.entry)).Holds
        (held ++ insertions.map Insertion.entry) := by
  induction insertions generalizing values held with
  | nil =>
      rw [List.map_nil, List.append_nil]
      exact ⟨rfl, holds⟩
  | cons insertion later induction =>
      rw [List.map_cons] at distinctValues distinctNames ⊢
      have inserted := holds.inserted_of_distinct distinctValues distinctNames
      have middle : (held ++ insertion.entry :: later.map Insertion.entry).Perm
          (insertion.entry :: held ++ later.map Insertion.entry) := List.perm_middle
      have further := induction (holds.insert inserted)
        ((middle.map NamedValue.value).nodup_iff.mp distinctValues)
        ((middle.map NamedValue.name).nodup_iff.mp distinctNames)
      rw [outcomes, insertion.perform_eq, further.1, inserted]
      exact ⟨rfl, further.2.perm middle.symm⟩

/-- A run of insertions of distinct entries ends with named values that hold just these. -/
theorem holds_afterRun {insertions : List Insertion}
    (distinctValues : ((insertions.map Insertion.entry).map NamedValue.value).Nodup)
    (distinctNames : ((insertions.map Insertion.entry).map NamedValue.name).Nodup) :
    empty.outcomes insertions = List.replicate insertions.length .inserted ∧
      (afterRun insertions).Holds (insertions.map Insertion.entry) := by
  rw [afterRun_eq]
  exact Holds.empty.accepts distinctValues distinctNames

/-- The entries are those of every list that is held. -/
theorem Holds.entries_perm {values : NamedValues} {held : List NamedValue}
    (holds : values.Holds held) : values.entries.Perm held := by
  apply (List.perm_ext_iff_of_nodup values.entries_nodup holds.nodup_values.of_map).mpr
  intro entry
  rw [mem_entries, holds.byValue_iff]

theorem beq_self (values : NamedValues) : (values == values) = true :=
  beq_self_eq_true values.byValue

/-- The index by values, which alone is compared, determines the index by names. -/
theorem Inverse.eq_of_beq {first second : NamedValues} (inverse : first.Inverse)
    (otherInverse : second.Inverse) (equal : (first == second) = true) : first = second := by
  have byValue : first.byValue = second.byValue := LawfulBEq.eq_of_beq equal
  have entries : second.entries = first.entries := by
    unfold NamedValues.entries
    rw [byValue]
  apply inverse.holds.unique
  rw [← entries]
  exact otherInverse.holds

/-- Nothing that can be asked of the one or done with it comes out differently for the other. -/
structure Indistinguishable (first second : NamedValues) : Prop where
  size : first.size = second.size
  nameOf? : ∀ slot value, first.nameOf? slot value = second.nameOf? slot value
  valueOf? : ∀ slot name, first.valueOf? slot name = second.valueOf? slot name
  outcomes : ∀ later : List Insertion, first.outcomes later = second.outcomes later
  after : ∀ later : List Insertion,
    (first.insertAll (later.map Insertion.entry) ==
      second.insertAll (later.map Insertion.entry)) = true

theorem Indistinguishable.refl (values : NamedValues) : Indistinguishable values values where
  size := rfl
  nameOf? := fun _ _ => rfl
  valueOf? := fun _ _ => rfl
  outcomes := fun _ => rfl
  after := fun _ => beq_self _

/-- Distinct entries are all accepted in whatever order they come, and leave equal named values
behind, which list them by slot and signed value.  Named values that insertions made and that
are equal cannot be told apart. -/
theorem reordered_and_equal_indistinguishable :
    (∀ insertions reordered : List Insertion,
      ((insertions.map Insertion.entry).map NamedValue.value).Nodup →
      ((insertions.map Insertion.entry).map NamedValue.name).Nodup →
      insertions.Perm reordered →
        empty.outcomes reordered = List.replicate insertions.length .inserted ∧
          (afterRun reordered == afterRun insertions) = true ∧
          (afterRun reordered).entries.Perm (insertions.map Insertion.entry) ∧
          (afterRun reordered).entries.Pairwise fun first second =>
            first.value.slot < second.value.slot ∨
              first.value.slot = second.value.slot ∧ first.value.value < second.value.value) ∧
      ∀ first second : List Insertion, (afterRun first == afterRun second) = true →
        Indistinguishable (afterRun first) (afterRun second) := by
  constructor
  · intro insertions reordered distinctValues distinctNames same
    have sameEntries := same.map Insertion.entry
    obtain ⟨accepted, holds⟩ := holds_afterRun
      ((sameEntries.map NamedValue.value).nodup_iff.mp distinctValues)
      ((sameEntries.map NamedValue.name).nodup_iff.mp distinctNames)
    have alike : afterRun reordered = afterRun insertions :=
      (holds.perm sameEntries.symm).unique (holds_afterRun distinctValues distinctNames).2
    refine ⟨?_, ?_, ?_, entries_ascending _⟩
    · rw [accepted, same.length_eq]
    · rw [alike]
      exact beq_self _
    · exact holds.entries_perm.trans sameEntries.symm
  · intro first second equal
    rw [(inverse_afterRun first).eq_of_beq (inverse_afterRun second) equal]
    exact .refl _

/-- A negative value, a name in another slot than its value, and insertions refused on either
side. -/
theorem reordered_and_equal_indistinguishable_of_crossSlot :
    let crossing : List Insertion :=
      [.across 1 5 0 (ascii "on"), .within 0 (-3) (ascii "off"), .within 0 5 (ascii "auto")]
    let refused : List Insertion := [.within 1 5 (ascii "up"), .within 0 9 (ascii "on")]
    ((crossing.map Insertion.entry).map NamedValue.value).Nodup ∧
      ((crossing.map Insertion.entry).map NamedValue.name).Nodup ∧
      crossing.Perm crossing.reverse ∧
      empty.outcomes crossing.reverse = [.inserted, .inserted, .inserted] ∧
      (afterRun crossing.reverse == afterRun crossing) = true ∧
      (afterRun (crossing ++ refused) == afterRun crossing.reverse) = true ∧
      Indistinguishable (afterRun (crossing ++ refused)) (afterRun crossing.reverse) := by
  intro crossing refused
  have distinctValues : ((crossing.map Insertion.entry).map NamedValue.value).Nodup := by decide
  have distinctNames : ((crossing.map Insertion.entry).map NamedValue.name).Nodup := by decide
  have reversed : crossing.Perm crossing.reverse := crossing.reverse_perm.symm
  have equal : (afterRun (crossing ++ refused) == afterRun crossing.reverse) = true := by
    decide +kernel
  obtain ⟨orders, equals⟩ := reordered_and_equal_indistinguishable
  obtain ⟨accepted, alike, -, -⟩ := orders crossing crossing.reverse distinctValues
    distinctNames reversed
  exact ⟨distinctValues, distinctNames, reversed, accepted, alike, equal, equals _ _ equal⟩

end OpcodeCatalog.NamedValues

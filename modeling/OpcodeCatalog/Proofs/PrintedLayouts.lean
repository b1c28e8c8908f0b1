import OpcodeCatalog.CommandLine.Run
import OpcodeCatalog.Proofs.LayoutSizes
import OpcodeCatalog.Proofs.Numerals

/-!
# Printed layouts

The spellings of a layout are again a descriptor of it, whether they follow each
other directly or a separator stands between them.  Every named operand is read
back from its spelling, whatever is behind.  The spelling of an unknown operand
names nothing, for all its digits: each text ends in a letter that it does not
hold.
-/

namespace OpcodeCatalog.Operand

variable {operand : Operand} {operands : List Operand} {descriptor text separator : Bytes}

/-- Every text ends in one of two letters. -/
theorem Opens.holds (opens : Opens operand descriptor) :
    'i'.toUInt8 ∈ descriptor ∨ 's'.toUInt8 ∈ descriptor := by
  have ends : ∀ operand ∈ typed,
      'i'.toUInt8 ∈ operand.spelling ∨ 's'.toUInt8 ∈ operand.spelling := by
    decide
  obtain ⟨behind, same⟩ := opens.exists_behind
  rw [same]
  rcases ends operand opens.mem_typed with letter | letter
  · exact .inl (List.mem_append_left behind letter)
  · exact .inr (List.mem_append_left behind letter)

theorem names_nothing (noI : 'i'.toUInt8 ∉ text) (noS : 's'.toUInt8 ∉ text) : Names text [] := by
  induction text with
  | nil => exact .nothing
  | cons byte rest induction =>
      apply Names.passed
      · intro operand opens
        exact opens.holds.elim noI noS
      · exact induction (fun member => noI (List.mem_cons_of_mem byte member))
          fun member => noS (List.mem_cons_of_mem byte member)

theorem names_unknown (size : UInt32) : Names (unknown size).spelling [] := by
  have letters : ∀ letter, Ascii.isDigit letter = false →
      letter ∉ ascii "unknown(" → letter ∉ ascii ")" → letter ∉ (unknown size).spelling := by
    intro letter notDigit notOpening notClosing member
    rcases List.mem_append.mp member with front | closing
    · rcases List.mem_append.mp front with opening | digit
      · exact notOpening opening
      · exact Bool.false_ne_true (notDigit.symm.trans (isDigit_of_mem_decimal digit))
    · exact notClosing closing
  exact names_nothing (letters _ (by decide) (by decide) (by decide))
    (letters _ (by decide) (by decide) (by decide))

/-- Bytes that can begin no text are passed over. -/
theorem Names.behind (quiet : ∀ byte ∈ separator, byte ∉ ascii "13i")
    (names : Names descriptor operands) : Names (separator ++ descriptor) operands := by
  induction separator with
  | nil => exact names
  | cons byte separator induction =>
      rw [List.forall_mem_cons] at quiet
      exact .passed (fun operand opens => quiet.1 opens.first_mem) (induction quiet.2)

/-- Spellings name the operands again, if none but the last one is unknown. -/
theorem names_intercalate (quiet : ∀ byte ∈ separator, byte ∉ ascii "13i")
    (unknownLast : ∀ operand ∈ operands.dropLast, operand.isNamed = true) :
    Names (separator.intercalate (operands.map spelling)) (operands.filter isNamed) := by
  induction operands with
  | nil => exact .nothing
  | cons operand operands induction =>
      cases operands with
      | nil =>
          rw [List.map_singleton, List.intercalate_singleton]
          by_cases named : operand.isNamed = true
          · rw [List.filter_cons_of_pos named, ← List.append_nil operand.spelling]
            exact .read (mem_typed_iff.mpr named) .nothing
          · rw [List.filter_cons_of_neg named]
            cases operand with
            | unknown size => exact names_unknown size
            | _ => exact (named rfl).elim
      | cons second operands =>
          rw [List.dropLast_cons_cons, List.forall_mem_cons] at unknownLast
          rw [List.map_cons, List.map_cons, List.intercalate_cons_cons, List.append_assoc,
            List.filter_cons_of_pos unknownLast.1]
          exact .read (mem_typed_iff.mpr unknownLast.1) (.behind quiet (induction unknownLast.2))

theorem nil_intercalate (parts : List Bytes) : ([] : Bytes).intercalate parts = parts.flatten := by
  induction parts with
  | nil => rfl
  | cons part parts induction =>
      cases parts with
      | nil => rw [List.intercalate_singleton, List.flatten_singleton]
      | cons second parts =>
          rw [List.intercalate_cons_cons, List.append_nil, induction]
          exact List.flatten_cons.symm

theorem layout_intercalate (quiet : ∀ byte ∈ separator, byte ∉ ascii "13i") (descriptor : Bytes)
    (declaredSize : UInt32) :
    layout (separator.intercalate ((layout descriptor declaredSize).map spelling)) declaredSize =
      layout descriptor declaredSize := by
  have unknownLast := (fillsSize_layout descriptor declaredSize).unknown_last
  have named := (names_intercalate quiet unknownLast).ofDescriptor_eq
  rw [filter_layout] at named
  rw [layout_eq, named, ← layout_eq]

/-- A printed layout is a descriptor of the layout, its spellings joined directly or with
commas, as they stand in the line that describes an instruction. -/
theorem layout_of_printed (descriptor : Bytes) (declaredSize : UInt32) :
    layout ((layout descriptor declaredSize).flatMap spelling) declaredSize =
        layout descriptor declaredSize ∧
      layout ((ascii ", ").intercalate ((layout descriptor declaredSize).map spelling))
          declaredSize = layout descriptor declaredSize ∧
      ∀ id name block values, ∃ heading,
        CommandLine.describe ⟨id, declaredSize, descriptor, name, block, values⟩ =
          heading ++ ascii " args=[" ++
            (ascii ", ").intercalate ((layout descriptor declaredSize).map spelling) ++
            ascii "]\n" := by
  have joined := layout_intercalate (List.forall_mem_nil _) descriptor declaredSize
  rw [nil_intercalate, ← List.flatMap_def] at joined
  have quiet : ∀ byte ∈ ascii ", ", byte ∉ ascii "13i" := by decide +kernel
  refine ⟨joined, layout_intercalate quiet descriptor declaredSize, ?_⟩
  intro id name block values
  exact ⟨_, rfl⟩

-- The digits of an unknown operand's size are passed over, and the size is found again.
example :
    layout (ascii "i") 24 = [int, unknown 16] ∧
      layout (ascii "i, unknown(16)") 24 = [int, unknown 16] := by
  decide +kernel

end OpcodeCatalog.Operand

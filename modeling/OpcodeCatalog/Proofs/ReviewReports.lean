import OpcodeCatalog.Proofs.ReviewedLookups

/-!
# What a review reports

The remarks on a catalog are told without a run over it: each depends on one
instruction and on those declared before it.  A review reports exactly these
remarks, in the order of the instructions and of their named values, behind
whatever was reported before.  All of them are warnings.
-/

namespace OpcodeCatalog

/-- A finding where there is a cause for it. -/
def remark (cause : Prop) [Decidable cause] (finding : Finding) : List Finding :=
  if cause then [finding] else []

theorem mem_remark {cause : Prop} [Decidable cause] {finding other : Finding} :
    other ∈ remark cause finding ↔ cause ∧ other = finding := by
  unfold remark
  by_cases holds : cause
  · rw [if_pos holds, List.mem_singleton, and_iff_right holds]
  · rw [if_neg holds]
    exact iff_of_false List.not_mem_nil fun made => holds made.1

theorem remark_of_not {cause : Prop} [Decidable cause] (spared : ¬ cause) (finding : Finding) :
    remark cause finding = [] :=
  if_neg spared

theorem remark_of {cause : Prop} [Decidable cause] (holds : cause) (finding : Finding) :
    remark cause finding = [finding] :=
  if_pos holds

namespace Instruction

/-- The remarks on a named value, where the instruction has so many operands: each slot that
is out of range, and that the slots differ. -/
def valueRemarks (instruction : Instruction) (count : Nat) (entry : NamedValue) : List Finding :=
  let outOfRange (slot : UInt32) : Finding :=
    .slotOutOfRange entry.name.name slot instruction.displayName count
  remark (count ≤ entry.value.slot.toNat) (outOfRange entry.value.slot) ++
    remark (entry.name.slot ≠ entry.value.slot ∧ count ≤ entry.name.slot.toNat)
      (outOfRange entry.name.slot) ++
    remark (entry.value.slot ≠ entry.name.slot)
      (.crossSlot entry.name.name entry.value.slot entry.name.slot instruction.displayName)

/-- The remarks on an instruction that is declared behind others.  The unknown operand that
fills its size counts as one of its operands. -/
def remarksBehind (instruction : Instruction) (before : List Instruction) : List Finding :=
  let operands := Operand.layout instruction.descriptor instruction.size
  remark (∃ earlier ∈ before, earlier.id = instruction.id) (.duplicateOpcode instruction.id) ++
    remark (instruction.name ≠ [] ∧ ∃ earlier ∈ before, earlier.name = instruction.name)
      (.duplicateName instruction.name) ++
    instruction.values.entries.flatMap (instruction.valueRemarks operands.length)

theorem reviewValue_eq (instruction : Instruction) (count : Nat) :
    instruction.reviewValue count = instruction.valueRemarks count := by
  funext entry
  have outOfRange (slot : Nat) (finding : Finding) :
      (if slot < count then [] else [finding]) = remark (count ≤ slot) finding := by
    rw [remark, ← ite_not]
    simp only [Nat.not_lt]
  by_cases same : entry.value.slot = entry.name.slot
  · simp [reviewValue, valueRemarks, outOfRange, same, remark_of_not]
  · have crossing := Ne.symm same
    simp [reviewValue, valueRemarks, outOfRange, same, crossing, remark_of]

theorem reviewInstruction_eq (before : List Instruction) (instruction : Instruction) :
    Catalog.reviewInstruction (.ofList before) instruction = instruction.remarksBehind before := by
  simp only [Catalog.reviewInstruction, reviewValues, operands, reviewValue_eq, remarksBehind,
    remark, Catalog.Seen.mem_ofList.1, Catalog.Seen.mem_ofList.2]

theorem severity_of_mem_remarksBehind {instruction : Instruction} {before : List Instruction}
    {finding : Finding} (member : finding ∈ instruction.remarksBehind before) :
    finding.diagnostic.severity = .warning := by
  simp only [remarksBehind, valueRemarks, List.mem_append, List.mem_flatMap, mem_remark] at member
  rcases member with (⟨-, rfl⟩ | ⟨-, rfl⟩) | ⟨entry, -, (⟨-, rfl⟩ | ⟨-, rfl⟩) | ⟨-, rfl⟩⟩ <;> rfl

end Instruction

namespace Catalog

/-- The remarks on the instruction at a place. -/
def remarksAt (catalog : Catalog) (place : Nat) : List Finding :=
  match catalog.instructions[place]? with
  | some instruction => instruction.remarksBehind (catalog.instructions.take place)
  | none => []

/-- The remarks on a catalog, instruction by instruction. -/
def remarks (catalog : Catalog) : List Finding :=
  (List.range catalog.size).flatMap catalog.remarksAt

theorem review_eq_remarks (catalog : Catalog) : catalog.review = catalog.remarks := by
  have places : catalog.reviewAt = catalog.remarksAt := by
    funext place
    unfold reviewAt remarksAt
    cases catalog.instructions[place]? with
    | none => rfl
    | some instruction => exact Instruction.reviewInstruction_eq _ instruction
  rw [review_eq, places, remarks]

theorem severity_of_mem_remarks {catalog : Catalog} {finding : Finding}
    (member : finding ∈ catalog.remarks) : finding.diagnostic.severity = .warning := by
  obtain ⟨place, -, member⟩ := List.mem_flatMap.mp member
  unfold remarksAt at member
  split at member
  · exact Instruction.severity_of_mem_remarksBehind member
  · cases member

end Catalog

theorem Log.count_reportAll (log : Log) (diagnostics : List Diagnostic) (severity : Severity) :
    (log.reportAll diagnostics).count severity =
      log.count severity + diagnostics.countP (·.severity == severity) :=
  List.countP_append

/-- A review reports the remarks on its catalog, in order and behind what the log holds.
Their number is returned and added to the warnings; errors there are as before.  The named
values come in order of their slots and signed values, with none left out. -/
theorem Catalog.review_reports_remarks (catalog : Catalog) (log : Log) :
    (catalog.reportReview log).2.entries =
        log.entries ++ catalog.remarks.map (·.diagnostic) ∧
      (catalog.reportReview log).1 = catalog.remarks.length ∧
      (catalog.reportReview log).2.warningCount = log.warningCount + catalog.remarks.length ∧
      (catalog.reportReview log).2.errorCount = log.errorCount ∧
      ∀ values : NamedValues,
        (values.entries.Pairwise fun first second =>
          first.value.slot < second.value.slot ∨
            first.value.slot = second.value.slot ∧ first.value.value < second.value.value) ∧
          ∀ entry, entry ∈ values.entries ↔ values.byValue[entry.value]? = some entry.name := by
  have report : catalog.reportReview log =
      (catalog.remarks.length, log.reportAll (catalog.remarks.map (·.diagnostic))) := by
    rw [reportReview, review_eq_remarks]
  have warning : ∀ diagnostic ∈ catalog.remarks.map (fun finding => finding.diagnostic),
      diagnostic.severity = .warning := by
    intro diagnostic member
    obtain ⟨finding, findingMember, rfl⟩ := List.mem_map.mp member
    exact severity_of_mem_remarks findingMember
  rw [report]
  refine ⟨rfl, rfl, ?_, ?_, ?_⟩
  · apply (log.count_reportAll _ _).trans
    rw [List.countP_eq_length.mpr, List.length_map]
    · rfl
    · intro diagnostic member
      exact beq_iff_eq.mpr (warning diagnostic member)
  · apply (log.count_reportAll _ _).trans
    rw [List.countP_eq_zero.mpr]
    · rfl
    · intro diagnostic member
      rw [warning diagnostic member]
      decide
  · intro values
    exact ⟨values.entries_ascending, fun entry => NamedValues.mem_entries⟩

-- One entry can be the cause of three remarks, and its instruction of two more.
example :
    let first : Instruction := ⟨1, 8, ascii "i", ascii "f", .noBlock, .empty⟩
    let crossing : NamedValue := ⟨⟨1, 0⟩, ⟨2, ascii "on"⟩⟩
    let second := { first with values := (NamedValues.empty.insert crossing).2 }
    second.remarksBehind [first] =
      [.duplicateOpcode 1, .duplicateName (ascii "f"),
        .slotOutOfRange (ascii "on") 1 (ascii "f") 1,
        .slotOutOfRange (ascii "on") 2 (ascii "f") 1,
        .crossSlot (ascii "on") 1 2 (ascii "f")] := by
  decide +kernel

end OpcodeCatalog

import Mathlib.Algebra.Group.Nat.Defs
import OpcodeCatalog.Proofs.OperandOccurrences

/-!
# The sizes of a layout

An instruction takes up the four bytes of its opcode and those of its operands.
Where the named operands leave room in the declared size, one unknown operand
fills it exactly; where they leave none, or go beyond it, nothing is added.  All
totals are exact: those of a descriptor that a machine can hold fit into 64 bits.
-/

namespace OpcodeCatalog.Operand

variable {descriptor : Bytes} {operands : List Operand}

/-- The total of the sizes, added up in 64 bits. -/
def wrappedTotal (operands : List Operand) : UInt64 :=
  operands.foldl (fun total operand => total + operand.size.toUInt64) 0

/-- How a layout accounts for the declared size of its instruction. -/
structure FillsSize (operands : List Operand) (declaredSize : UInt32) : Prop where
  /-- Room that is left is taken up by an unknown operand. -/
  padded : 4 ≤ declaredSize.toNat →
    totalSize (operands.filter isNamed) < declaredSize.toNat - 4 →
      ∃ size : UInt32, operands = operands.filter isNamed ++ [unknown size] ∧
        0 < size.toNat ∧
        size.toNat = declaredSize.toNat - 4 - totalSize (operands.filter isNamed) ∧
        totalSize operands = declaredSize.toNat - 4
  unpadded : ¬ (4 ≤ declaredSize.toNat ∧
      totalSize (operands.filter isNamed) < declaredSize.toNat - 4) →
    operands = operands.filter isNamed ∧
      totalSize operands = totalSize (operands.filter isNamed)
  unknown_last : ∀ operand ∈ operands.dropLast, operand.isNamed = true
  named_sizes : ∀ operand ∈ operands.filter isNamed,
    operand = int ∧ operand.size = 4 ∨ operand = string16 ∧ operand.size = 16 ∨
      operand = string32 ∧ operand.size = 32

theorem totalSize_append (first second : List Operand) :
    totalSize (first ++ second) = totalSize first + totalSize second := by
  induction first with
  | nil => rw [List.nil_append, totalSize, Nat.zero_add]
  | cons operand first induction =>
      rw [List.cons_append, totalSize, totalSize, induction, Nat.add_assoc]

theorem toNat_foldl_size {start : UInt64}
    (small : start.toNat + totalSize operands < 2 ^ 64) :
    (operands.foldl (fun total operand => total + operand.size.toUInt64) start).toNat =
      start.toNat + totalSize operands := by
  induction operands generalizing start with
  | nil => rfl
  | cons operand operands induction =>
      rw [totalSize] at small ⊢
      have added : (start + operand.size.toUInt64).toNat = start.toNat + operand.size.toNat := by
        rw [UInt64.toNat_add, UInt32.toNat_toUInt64]
        apply Nat.mod_eq_of_lt
        omega
      rw [List.foldl_cons, induction (by omega), added, Nat.add_assoc]

theorem toNat_wrappedTotal (small : totalSize operands < 2 ^ 64) :
    (wrappedTotal operands).toNat = totalSize operands :=
  (toNat_foldl_size (by rwa [UInt64.toNat_zero, Nat.zero_add])).trans (Nat.zero_add _)

theorem Names.totalSize_le (names : Names descriptor operands) :
    totalSize operands ≤ 32 * descriptor.length := by
  have sizes : ∀ operand ∈ typed, operand.size.toNat ≤ 32 * operand.spelling.length := by decide
  induction names with
  | nothing => exact Nat.zero_le _
  | @read operand behind operands member names induction =>
      have size := sizes operand member
      rw [totalSize, List.length_append]
      omega
  | passed silent names induction =>
      rw [List.length_cons]
      omega

theorem fillsSize_layout (descriptor : Bytes) (declaredSize : UInt32) :
    FillsSize (layout descriptor declaredSize) declaredSize := by
  constructor
  · intro header room
    rw [filter_layout] at room ⊢
    obtain ⟨size, padded, exact⟩ := padding_of_room room
    rw [layout_eq, padded]
    refine ⟨size, rfl, ?_, exact, ?_⟩
    · rw [exact]
      exact Nat.sub_pos_of_lt room
    · rw [totalSize_append]
      change totalSize _ + size.toNat = _
      rw [exact]
      exact Nat.add_sub_of_le (Nat.le_of_lt room)
  · intro full
    rw [filter_layout] at full ⊢
    have noRoom : ¬ totalSize (ofDescriptor descriptor) < declaredSize.toNat - headerSize := by
      intro room
      have header : headerSize < declaredSize.toNat := Nat.lt_of_sub_pos (Nat.zero_lt_of_lt room)
      exact full ⟨Nat.le_of_lt header, room⟩
    rw [layout_eq, padding_of_no_room noRoom, List.append_nil]
    exact ⟨rfl, rfl⟩
  · intro operand member
    apply (names_ofDescriptor descriptor).all_named operand
    rw [layout_eq] at member
    rcases padding_eq_nil_or (ofDescriptor descriptor) declaredSize with silent | ⟨size, padded⟩
    · rw [silent, List.append_nil] at member
      exact List.dropLast_subset _ member
    · rwa [padded, List.dropLast_concat] at member
  · intro operand member
    have named := (List.mem_filter.mp member).2
    cases operand with
    | int => exact .inl ⟨rfl, rfl⟩
    | string16 => exact .inr (.inl ⟨rfl, rfl⟩)
    | string32 => exact .inr (.inr ⟨rfl, rfl⟩)
    | unknown size => cases named

/-- The layout of an instruction fills its declared size wherever the named operands leave
room, and the totals of a descriptor of less than 2 ^ 58 bytes are those of 64-bit numbers. -/
theorem layout_fills_size (descriptor : Bytes) (declaredSize : UInt32) :
    FillsSize (layout descriptor declaredSize) declaredSize ∧
      (descriptor.length < 2 ^ 58 →
        (wrappedTotal ((layout descriptor declaredSize).filter isNamed)).toNat =
            totalSize ((layout descriptor declaredSize).filter isNamed) ∧
          (wrappedTotal (layout descriptor declaredSize)).toNat =
            totalSize (layout descriptor declaredSize)) := by
  have filled := fillsSize_layout descriptor declaredSize
  refine ⟨filled, ?_⟩
  intro short
  have named : totalSize ((layout descriptor declaredSize).filter isNamed) < 2 ^ 64 := by
    have bounded := (names_ofDescriptor descriptor).totalSize_le
    rw [filter_layout]
    omega
  have all : totalSize (layout descriptor declaredSize) < 2 ^ 64 := by
    have declared := declaredSize.toNat_lt
    by_cases room : 4 ≤ declaredSize.toNat ∧
        totalSize ((layout descriptor declaredSize).filter isNamed) < declaredSize.toNat - 4
    · obtain ⟨size, -, -, -, total⟩ := filled.padded room.1 room.2
      omega
    · rw [(filled.unpadded room).2]
      exact named
  exact ⟨toNat_wrappedTotal named, toNat_wrappedTotal all⟩

/-- Operands that fill an instruction to the largest declared size. -/
theorem layout_fills_size_of_largest :
    (ascii "i,16s").length < 2 ^ 58 ∧
      layout (ascii "i,16s") 4294967295 = [int, string16, unknown 4294967271] ∧
      FillsSize [int, string16, unknown 4294967271] 4294967295 ∧
      (wrappedTotal [int, string16, unknown 4294967271]).toNat = 4294967291 := by
  have short : (ascii "i,16s").length < 2 ^ 58 := by decide
  have read : layout (ascii "i,16s") 4294967295 = [int, string16, unknown 4294967271] := by
    decide +kernel
  obtain ⟨filled, totals⟩ := layout_fills_size (ascii "i,16s") 4294967295
  have total := (totals short).2
  rw [read] at filled total
  exact ⟨short, read, filled, total⟩

end OpcodeCatalog.Operand

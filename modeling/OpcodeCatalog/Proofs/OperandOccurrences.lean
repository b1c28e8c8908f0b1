import Mathlib.Data.List.Nodup
import OpcodeCatalog.Operand

/-!
# Operands and the places of their texts

A descriptor is read from left to right, by a whole text where one stands and by
one byte elsewhere.  Nothing is lost by the longer steps: no text of an operand
opens within another one, so the operands that are read are those whose texts
stand anywhere in the descriptor, each once and in the order of their places.
-/

namespace OpcodeCatalog.Operand

/-- A descriptor begins with the text of an operand. -/
inductive Opens : Operand → Bytes → Prop
  | int (behind : Bytes) : Opens int (ascii "i" ++ behind)
  | string16 (behind : Bytes) : Opens string16 (ascii "16s" ++ behind)
  | string32 (behind : Bytes) : Opens string32 (ascii "32s" ++ behind)

/-- The operands whose texts stand in a descriptor, with their places from left to right. -/
structure Occurrences (descriptor : Bytes) (found : List (Nat × Operand)) : Prop where
  ascending : found.Pairwise fun first second => first.1 < second.1
  mem_iff : ∀ place operand,
    (place, operand) ∈ found ↔ Opens operand (descriptor.drop place)

/-- An operand of a type that descriptors can name. -/
def isNamed : Operand → Bool
  | unknown _ => false
  | _ => true

variable {operand other : Operand} {descriptor behind rest : Bytes} {byte : UInt8}

theorem opens_spelling (member : operand ∈ typed) (behind : Bytes) :
    Opens operand (operand.spelling ++ behind) := by
  simp only [typed, List.mem_cons, List.not_mem_nil, or_false] at member
  rcases member with rfl | rfl | rfl
  · exact .string16 behind
  · exact .string32 behind
  · exact .int behind

theorem spelling_length_pos (member : operand ∈ typed) : 0 < operand.spelling.length := by
  revert operand
  decide

namespace Opens

theorem mem_typed (opens : Opens operand descriptor) : operand ∈ typed := by
  cases opens <;> decide

theorem exists_behind (opens : Opens operand descriptor) :
    ∃ behind, descriptor = operand.spelling ++ behind := by
  cases opens with
  | int behind => exact ⟨behind, rfl⟩
  | string16 behind => exact ⟨behind, rfl⟩
  | string32 behind => exact ⟨behind, rfl⟩

/-- Few bytes can begin a text. -/
theorem exists_first (opens : Opens operand descriptor) :
    ∃ byte rest, descriptor = byte :: rest ∧ byte ∈ ascii "13i" := by
  cases opens with
  | int behind => exact ⟨_, behind, rfl, by decide⟩
  | string16 behind => exact ⟨_, ascii "6s" ++ behind, rfl, by decide⟩
  | string32 behind => exact ⟨_, ascii "2s" ++ behind, rfl, by decide⟩

theorem first_mem (opens : Opens operand (byte :: rest)) : byte ∈ ascii "13i" := by
  obtain ⟨first, others, same, member⟩ := opens.exists_first
  rw [List.cons.inj same |>.1]
  exact member

theorem ne_nil (opens : Opens operand descriptor) : descriptor ≠ [] := by
  obtain ⟨byte, rest, same, _⟩ := opens.exists_first
  rw [same]
  exact List.cons_ne_nil byte rest

end Opens

theorem atFront?_eq_some_iff : atFront? descriptor = some operand ↔ Opens operand descriptor := by
  constructor
  · intro found
    have matched := List.find?_some (l := typed) found
    obtain ⟨behind, rfl⟩ := List.isPrefixOf_iff_prefix.mp matched
    exact opens_spelling (List.mem_of_find?_eq_some found) behind
  · intro opens
    cases opens with
    | int behind => rfl
    | string16 behind => rfl
    | string32 behind => rfl

theorem Opens.unique (opens : Opens operand descriptor) (also : Opens other descriptor) :
    operand = other :=
  Option.some.inj ((atFront?_eq_some_iff.mpr opens).symm.trans (atFront?_eq_some_iff.mpr also))

theorem atFront?_eq_none_iff :
    atFront? descriptor = none ↔ ∀ operand, ¬ Opens operand descriptor := by
  simp only [Option.eq_none_iff_forall_ne_some, ne_eq, atFront?_eq_some_iff]

/-- Within a text no other one begins. -/
theorem not_opens_within (member : operand ∈ typed) {place : Nat} (positive : 0 < place)
    (within : place < operand.spelling.length) :
    ¬ Opens other ((operand.spelling ++ behind).drop place) := by
  have quiet : ∀ operand ∈ typed, ∀ byte ∈ operand.spelling.drop 1, byte ∉ ascii "13i" := by
    decide +kernel
  intro opens
  rw [List.drop_append_of_le_length (Nat.le_of_lt within),
    List.drop_eq_getElem_cons within] at opens
  apply quiet operand member operand.spelling[place] _ opens.first_mem
  apply List.mem_drop_iff_getElem.mpr
  exact ⟨place - 1, by omega, by congr; omega⟩

/-- A descriptor names operands: whole texts are read where they stand, and what opens none
is passed over byte by byte. -/
inductive Names : Bytes → List Operand → Prop
  | nothing : Names [] []
  | read {operand : Operand} {behind : Bytes} {operands : List Operand} :
      operand ∈ typed → Names behind operands →
        Names (operand.spelling ++ behind) (operand :: operands)
  | passed {byte : UInt8} {rest : Bytes} {operands : List Operand} :
      (∀ operand, ¬ Opens operand (byte :: rest)) → Names rest operands →
        Names (byte :: rest) operands

/-- Behind its first byte, what is left of a text is dropped. -/
theorem drop_spelling (member : operand ∈ typed)
    (same : byte :: rest = operand.spelling ++ behind) :
    rest.drop (operand.spelling.length - 1) = behind := by
  have dropped := congrArg (List.drop operand.spelling.length) same
  rw [List.drop_left, ← Nat.succ_pred_eq_of_pos (spelling_length_pos member)] at dropped
  exact dropped

theorem names_ofDescriptor (descriptor : Bytes) : Names descriptor (ofDescriptor descriptor) := by
  fun_induction ofDescriptor descriptor with
  | case1 => exact .nothing
  | case2 byte rest operand found induction =>
      have opens := atFront?_eq_some_iff.mp found
      obtain ⟨behind, same⟩ := opens.exists_behind
      rw [drop_spelling opens.mem_typed same] at induction ⊢
      rw [same]
      exact .read opens.mem_typed induction
  | case3 byte rest missing induction =>
      exact .passed (atFront?_eq_none_iff.mp missing) induction

theorem Names.ofDescriptor_eq {operands : List Operand} (names : Names descriptor operands) :
    ofDescriptor descriptor = operands := by
  induction names with
  | nothing => rw [ofDescriptor]
  | @read operand behind operands member names induction =>
      have opens := opens_spelling member behind
      obtain ⟨byte, rest, same, -⟩ := opens.exists_first
      have found := atFront?_eq_some_iff.mpr opens
      rw [same] at found ⊢
      rw [ofDescriptor, found]
      exact congrArg _ ((congrArg _ (drop_spelling member same.symm)).trans induction)
  | passed silent names induction =>
      rw [ofDescriptor, atFront?_eq_none_iff.mpr silent]
      exact induction

/-! ## Places -/

/-- A place counted from further to the left. -/
def shifted (width : Nat) (occurrence : Nat × Operand) : Nat × Operand :=
  (width + occurrence.1, occurrence.2)

namespace Occurrences

theorem unique {found listed : List (Nat × Operand)} (occurrences : Occurrences descriptor found)
    (also : Occurrences descriptor listed) : listed = found := by
  have distinct {found : List (Nat × Operand)} (occurrences : Occurrences descriptor found) :
      found.Nodup := by
    apply occurrences.ascending.imp
    intro first second before same
    exact Nat.lt_irrefl _ (same ▸ before)
  have same : listed.Perm found := by
    apply (List.perm_ext_iff_of_nodup (distinct also) (distinct occurrences)).mpr
    intro occurrence
    exact (also.mem_iff _ _).trans (occurrences.mem_iff _ _).symm
  apply same.eq_of_pairwise _ also.ascending occurrences.ascending
  intro first second _ _ before behind
  exact (Nat.lt_asymm before behind).elim

theorem nil : Occurrences [] [] where
  ascending := List.Pairwise.nil
  mem_iff := by
    intro place operand
    rw [List.drop_nil]
    exact iff_of_false List.not_mem_nil fun opens => opens.ne_nil rfl

/-- What stands at the first places comes first, and all that is behind is further on. -/
theorem append {front : Bytes} {here found : List (Nat × Operand)}
    (ascending : here.Pairwise fun first second => first.1 < second.1)
    (mem_iff : ∀ place operand, (place, operand) ∈ here ↔
      place < front.length ∧ Opens operand ((front ++ behind).drop place))
    (later : Occurrences behind found) :
    Occurrences (front ++ behind) (here ++ found.map (shifted front.length)) where
  ascending := by
    rw [List.pairwise_append, List.pairwise_map]
    refine ⟨ascending, ?_, ?_⟩
    · apply later.ascending.imp
      intro first second before
      exact Nat.add_lt_add_left before _
    · intro first firstMember second secondMember
      obtain ⟨original, -, rfl⟩ := List.mem_map.mp secondMember
      have inFront := ((mem_iff first.1 first.2).mp firstMember).1
      exact Nat.lt_of_lt_of_le inFront (Nat.le_add_right _ _)
  mem_iff := by
    intro place operand
    rw [List.mem_append, mem_iff]
    constructor
    · intro found
      rcases found with first | shiftedMember
      · exact first.2
      · obtain ⟨⟨index, _⟩, member, same⟩ := List.mem_map.mp shiftedMember
        obtain ⟨rfl, rfl⟩ := Prod.mk.inj same
        have opens := (later.mem_iff _ _).mp member
        rwa [← List.drop_drop, List.drop_left]
    · intro opens
      by_cases inFront : place < front.length
      · exact .inl ⟨inFront, opens⟩
      · obtain ⟨index, rfl⟩ := Nat.exists_eq_add_of_le (Nat.le_of_not_lt inFront)
        rw [← List.drop_drop, List.drop_left] at opens
        exact .inr (List.mem_map.mpr ⟨(index, operand), (later.mem_iff _ _).mpr opens, rfl⟩)

theorem read {found : List (Nat × Operand)} (member : operand ∈ typed)
    (later : Occurrences behind found) :
    Occurrences (operand.spelling ++ behind)
      ([(0, operand)] ++ found.map (shifted operand.spelling.length)) := by
  apply append (List.pairwise_singleton _ _) _ later
  intro place other
  rw [List.mem_singleton, Prod.mk.injEq]
  constructor
  · rintro ⟨rfl, rfl⟩
    exact ⟨spelling_length_pos member, opens_spelling member behind⟩
  · rintro ⟨within, opens⟩
    rcases Nat.eq_zero_or_pos place with rfl | positive
    · exact ⟨rfl, opens.unique (opens_spelling member behind)⟩
    · exact (not_opens_within member positive within opens).elim

theorem passed {found : List (Nat × Operand)} (silent : ∀ operand, ¬ Opens operand (byte :: rest))
    (later : Occurrences rest found) :
    Occurrences (byte :: rest) (found.map (shifted 1)) := by
  suffices Occurrences ([byte] ++ rest) ([] ++ found.map (shifted [byte].length)) from this
  apply append List.Pairwise.nil _ later
  intro place operand
  apply iff_of_false List.not_mem_nil
  rintro ⟨within, opens⟩
  obtain rfl := Nat.lt_one_iff.mp within
  exact silent operand opens

end Occurrences

theorem map_snd_shifted (width : Nat) (found : List (Nat × Operand)) :
    (found.map (shifted width)).map Prod.snd = found.map Prod.snd :=
  List.map_map

theorem Names.exists_occurrences {operands : List Operand} (names : Names descriptor operands) :
    ∃ found, Occurrences descriptor found ∧ operands = found.map Prod.snd := by
  -- Along the steps of the reading: the places behind a step move on by its width.
  induction names with
  | nothing => exact ⟨[], .nil, rfl⟩
  | read member names induction =>
      obtain ⟨found, occurrences, rfl⟩ := induction
      refine ⟨_, occurrences.read member, ?_⟩
      rw [List.map_append, map_snd_shifted]
      rfl
  | passed silent names induction =>
      obtain ⟨found, occurrences, rfl⟩ := induction
      exact ⟨_, occurrences.passed silent, (map_snd_shifted 1 found).symm⟩

/-! ## Separators -/

/-- A text does not reach over a byte that it does not hold. -/
theorem Opens.before {front : Bytes} {separator : UInt8} (foreign : separator ∉ ascii "1632si")
    (opens : Opens operand (front ++ separator :: behind)) : Opens operand front := by
  have bytes : ∀ operand ∈ typed, ∀ byte ∈ operand.spelling, byte ∈ ascii "1632si" := by
    decide +kernel
  have member := opens.mem_typed
  obtain ⟨after, same⟩ := opens.exists_behind
  rcases List.append_eq_append_iff.mp same with ⟨reached, spelling, across⟩ | ⟨left, rfl, -⟩
  · cases reached with
    | nil =>
        rw [List.append_nil] at spelling
        rw [← spelling, ← List.append_nil operand.spelling]
        exact opens_spelling member []
    | cons first reached =>
        rw [List.cons_append, List.cons.injEq] at across
        apply (foreign (bytes operand member separator _)).elim
        rw [spelling, across.1]
        exact List.mem_append_right front List.mem_cons_self
  · exact opens_spelling member left

theorem Names.join {first second : Bytes} {separator : UInt8}
    {firstNamed secondNamed : List Operand} (foreign : separator ∉ ascii "1632si")
    (firstNames : Names first firstNamed) (secondNames : Names second secondNamed) :
    Names (first ++ separator :: second) (firstNamed ++ secondNamed) := by
  induction firstNames with
  | nothing =>
      refine .passed ?_ secondNames
      intro operand opens
      have opensNothing : Opens operand [] := .before foreign opens
      exact opensNothing.ne_nil rfl
  | read member names induction =>
      rw [List.append_assoc]
      exact .read member induction
  | passed silent names induction =>
      refine .passed ?_ induction
      intro operand opens
      exact silent operand (.before foreign opens)

/-! ## Layouts -/

/-- What is added behind the named operands of an instruction. -/
def padding (named : List Operand) (declaredSize : UInt32) : List Operand :=
  let room := declaredSize.toNat - headerSize
  if totalSize named < room then [unknown (room - totalSize named).toUInt32] else []

theorem layout_eq (descriptor : Bytes) (declaredSize : UInt32) :
    layout descriptor declaredSize =
      ofDescriptor descriptor ++ padding (ofDescriptor descriptor) declaredSize := by
  unfold layout padding
  dsimp only
  split
  · rfl
  · rw [List.append_nil]

theorem padding_of_room {named : List Operand} {declaredSize : UInt32}
    (room : totalSize named < declaredSize.toNat - headerSize) :
    ∃ size : UInt32, padding named declaredSize = [unknown size] ∧
      size.toNat = declaredSize.toNat - headerSize - totalSize named := by
  refine ⟨_, if_pos room, UInt32.toNat_ofNat_of_lt' ?_⟩
  calc
    declaredSize.toNat - headerSize - totalSize named
      ≤ declaredSize.toNat - headerSize := Nat.sub_le _ _
    _ ≤ declaredSize.toNat := Nat.sub_le _ _
    _ < UInt32.size := declaredSize.toNat_lt

theorem padding_of_no_room {named : List Operand} {declaredSize : UInt32}
    (full : ¬ totalSize named < declaredSize.toNat - headerSize) :
    padding named declaredSize = [] :=
  if_neg full

theorem padding_eq_nil_or (named : List Operand) (declaredSize : UInt32) :
    padding named declaredSize = [] ∨ ∃ size, padding named declaredSize = [unknown size] := by
  by_cases room : totalSize named < declaredSize.toNat - headerSize
  · obtain ⟨size, padded, -⟩ := padding_of_room room
    exact .inr ⟨size, padded⟩
  · exact .inl (padding_of_no_room room)

theorem mem_typed_iff : operand ∈ typed ↔ operand.isNamed = true := by
  cases operand with
  | unknown size => simp [typed, isNamed]
  | _ => decide

theorem Names.all_named {operands : List Operand} (names : Names descriptor operands) :
    ∀ operand ∈ operands, operand.isNamed = true := by
  induction names with
  | nothing => exact List.forall_mem_nil _
  | read member names induction =>
      exact List.forall_mem_cons.mpr ⟨mem_typed_iff.mp member, induction⟩
  | passed silent names induction => exact induction

theorem filter_layout (descriptor : Bytes) (declaredSize : UInt32) :
    (layout descriptor declaredSize).filter isNamed = ofDescriptor descriptor := by
  have named := List.filter_eq_self.mpr (names_ofDescriptor descriptor).all_named
  rw [layout_eq, List.filter_append, named]
  rcases padding_eq_nil_or (ofDescriptor descriptor) declaredSize with silent | ⟨size, padded⟩
  · rw [silent, List.filter_nil, List.append_nil]
  · rw [padded]
    exact List.append_nil _

/-- The operands of a layout, but for an unknown one behind them, are those whose texts stand
in the descriptor, in the order of their places.  A byte that is in none of the texts divides
a descriptor into two that are read by themselves. -/
theorem layout_names_occurrences (descriptor : Bytes) (declaredSize : UInt32) :
    (∃ found, (∀ listed, Occurrences descriptor listed ↔ listed = found) ∧
        (layout descriptor declaredSize).filter isNamed = found.map Prod.snd) ∧
      (layout descriptor declaredSize = (layout descriptor declaredSize).filter isNamed ∨
        ∃ size, layout descriptor declaredSize =
          (layout descriptor declaredSize).filter isNamed ++ [unknown size]) ∧
      ∀ separator ∉ ascii "1632si", ∀ other otherSize joinedSize,
        (layout (descriptor ++ separator :: other) joinedSize).filter isNamed =
          (layout descriptor declaredSize).filter isNamed ++
            (layout other otherSize).filter isNamed := by
  have names := names_ofDescriptor descriptor
  simp only [filter_layout]
  refine ⟨?_, ?_, ?_⟩
  · obtain ⟨found, occurrences, same⟩ := names.exists_occurrences
    refine ⟨found, fun listed => ⟨occurrences.unique, ?_⟩, same⟩
    rintro rfl
    exact occurrences
  · rw [layout_eq]
    rcases padding_eq_nil_or (ofDescriptor descriptor) declaredSize with silent | ⟨size, padded⟩
    · exact .inl (by rw [silent, List.append_nil])
    · exact .inr ⟨size, by rw [padded]⟩
  · intro separator foreign other _ _
    exact (names.join foreign (names_ofDescriptor other)).ofDescriptor_eq

/-- A comma between two descriptors that hold parts of texts. -/
theorem layout_names_occurrences_of_comma :
    ','.toUInt8 ∉ ascii "1632si" ∧
      (layout (ascii "116si3" ++ ','.toUInt8 :: ascii "2s32s16") 60).filter isNamed =
        [string16, int] ++ [string32] := by
  have foreign : ','.toUInt8 ∉ ascii "1632si" := by decide
  have divided := (layout_names_occurrences (ascii "116si3") 60).2.2 ','.toUInt8 foreign
    (ascii "2s32s16") 0 60
  have first : (layout (ascii "116si3") 60).filter isNamed = [string16, int] := by
    decide +kernel
  have second : (layout (ascii "2s32s16") 0).filter isNamed = [string32] := by decide +kernel
  rw [first, second] at divided
  exact ⟨foreign, divided⟩

end OpcodeCatalog.Operand

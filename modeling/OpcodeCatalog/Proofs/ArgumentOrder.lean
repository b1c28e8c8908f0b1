import OpcodeCatalog.Proofs.ArgumentGroups
import Mathlib.Data.List.Basic

/-!
# The order of options

What a command line says does not depend on where its options stand: groups of words may
change places as long as those of one kind keep their order.  Each field of the arguments
takes its value from groups of a single kind, or from whether any group raises a flag.
-/

namespace OpcodeCatalog.CommandLine

/-- What a group is about: one option, known or not, or the game. -/
inductive Kind where
  | option (spelling : Bytes)
  | game
  deriving DecidableEq

namespace WordGroup

def kind : WordGroup → Kind
  | option parameter _ => .option parameter.spelling
  | single word _ => if word.head? = some '-'.toUInt8 then .option word else .game

theorem kind_of_operand?_ne_none {parameter : Parameter} {group : WordGroup}
    (given : group.operand? parameter ≠ none) : group.kind = .option parameter.spelling := by
  cases group with
  | option own operand =>
      rw [kind, (ite_ne_right_iff.mp given).1]
  | single word plain => exact (given rfl).elim

theorem kind_of_game?_ne_none {group : WordGroup} (named : group.game? ≠ none) :
    group.kind = .game := by
  cases group with
  | option parameter operand => exact (named rfl).elim
  | single word plain => exact if_neg (ite_ne_left_iff.mp named).1

end WordGroup

/-- The same groups in another order, in which those of one kind follow each other as before. -/
structure Reordered (groups reordered : List WordGroup) : Prop where
  perm : groups.Perm reordered
  sameKind : ∀ kind, groups.filter (·.kind = kind) = reordered.filter (·.kind = kind)

namespace Reordered

variable {groups reordered : List WordGroup}

/-- Only the kinds of the groups themselves need to be compared. -/
theorem iff_forall_mem : Reordered groups reordered ↔
    groups.Perm reordered ∧
      ∀ group ∈ groups,
        groups.filter (·.kind = group.kind) = reordered.filter (·.kind = group.kind) := by
  constructor
  · exact fun order => ⟨order.perm, fun group _ => order.sameKind group.kind⟩
  · rintro ⟨perm, sameKind⟩
    refine ⟨perm, fun kind => ?_⟩
    by_cases occurs : ∃ group ∈ groups, group.kind = kind
    · obtain ⟨group, member, rfl⟩ := occurs
      exact sameKind group member
    · -- No group is of the kind on either side, since both sides have the same groups.
      have absent : groups.filter (·.kind = kind) = [] := by
        simpa using occurs
      have filtered := perm.filter (·.kind = kind)
      rw [absent] at filtered ⊢
      exact filtered.nil_eq

instance : Decidable (Reordered groups reordered) :=
  decidable_of_iff _ iff_forall_mem.symm

/-- What is taken from groups of one kind only is the same in the same order. -/
theorem filterMap_eq (order : Reordered groups reordered) {kind : Kind}
    {select : WordGroup → Option α} (only : ∀ group, select group ≠ none → group.kind = kind) :
    groups.filterMap select = reordered.filterMap select := by
  have restricted (all : List WordGroup) :
      all.filterMap select = (all.filter (·.kind = kind)).filterMap select := by
    rw [List.filterMap_filter]
    apply List.filterMap_congr
    intro group _
    by_cases same : group.kind = kind
    · simp [same]
    · simp [same, not_ne_iff.mp (mt (only group) same)]
  rw [restricted groups, restricted reordered, order.sameKind]

theorem operands_eq (order : Reordered groups reordered) (parameter : Parameter) :
    operands parameter groups = operands parameter reordered :=
  order.filterMap_eq fun _ => WordGroup.kind_of_operand?_ne_none

theorem games_eq (order : Reordered groups reordered) : games groups = games reordered :=
  order.filterMap_eq fun _ => WordGroup.kind_of_game?_ne_none

theorem gathered_eq (order : Reordered groups reordered) (settings : Settings) :
    Arguments.gathered settings groups = Arguments.gathered settings reordered := by
  have raised (flag : Flag) : groups.any (·.raises flag) = reordered.any (·.raises flag) :=
    order.perm.any_eq
  simp only [Arguments.gathered, order.operands_eq, order.games_eq, raised]

end Reordered

/-- Words in groups are accepted in one order exactly if they are in another one that keeps the
order of each kind, and then for the same arguments. -/
theorem reordered_accepted_alike {settings : Settings} {groups reordered : List WordGroup}
    (order : Reordered groups reordered) (arguments : Arguments) :
    Arguments.ofWords settings (groups.flatMap WordGroup.words) = .ok arguments ↔
      Arguments.ofWords settings (reordered.flatMap WordGroup.words) = .ok arguments := by
  have sound : (∀ group ∈ groups, group.Sound) ↔ ∀ group ∈ reordered, group.Sound := by
    simp only [order.perm.mem_iff]
  have oneGame : OneGame groups ↔ OneGame reordered := by
    rw [OneGame, OneGame, order.games_eq]
  rw [Arguments.ofWords_groups_eq_ok_iff, Arguments.ofWords_groups_eq_ok_iff, sound, oneGame,
    order.gathered_eq]

/-- Operands look like options, and a game stands behind a word that names none. -/
theorem reordered_accepted_alike_of_optionLikeOperands :
    let accepted : Arguments := {
      settings := { directory := ascii "db" }
      game := ascii "game"
      name := some (ascii "--dump")
      valueQueries := [⟨1, ascii "--id"⟩, ⟨2, []⟩] }
    Arguments.ofWords {} (["--db-dir", "--help", "", "--name", "--dump", "--value", "1:--id",
        "game", "--value", "0x2:", "--db-dir", "db"].map ascii) = .ok accepted ∧
      Arguments.ofWords {} (["--value", "1:--id", "--value", "0x2:", "", "--db-dir", "--help",
        "game", "--db-dir", "db", "--name", "--dump"].map ascii) = .ok accepted := by
  intro accepted
  have order : Reordered
      [.option .directory (ascii "--help"), .single (ascii "") (by decide),
        .option .name (ascii "--dump"), .option .value (ascii "1:--id"),
        .single (ascii "game") (by decide), .option .value (ascii "0x2:"),
        .option .directory (ascii "db")]
      [.option .value (ascii "1:--id"), .option .value (ascii "0x2:"),
        .single (ascii "") (by decide), .option .directory (ascii "--help"),
        .single (ascii "game") (by decide), .option .directory (ascii "db"),
        .option .name (ascii "--dump")] := by
    decide +kernel
  have first : Arguments.ofWords {} (["--db-dir", "--help", "", "--name", "--dump", "--value",
      "1:--id", "game", "--value", "0x2:", "--db-dir", "db"].map ascii) = .ok accepted := by
    decide +kernel
  exact ⟨first, (reordered_accepted_alike order accepted).mp first⟩

end OpcodeCatalog.CommandLine

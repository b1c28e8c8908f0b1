import OpcodeCatalog.SourceRegistry
import Mathlib.Data.List.Basic

/-!
# Registered paths

Paths are only ever added to a registry, behind those that it has.  So a path keeps
its place, and its number leads back to it for as long as the registry is in use.
-/

namespace OpcodeCatalog.SourceRegistry

variable {registry earlier later last : SourceRegistry} {path : Bytes}

/-- Whether a path is registered under some spelling. -/
def Knows (registry : SourceRegistry) (path : Bytes) : Prop :=
  Path.normalForm path ∈ registry.paths

instance (registry : SourceRegistry) (path : Bytes) : Decidable (registry.Knows path) :=
  inferInstanceAs (Decidable (_ ∈ _))

/-- The place that a path has or, behind all registered ones, would get. -/
def place (registry : SourceRegistry) (path : Bytes) : Nat :=
  registry.paths.idxOf (Path.normalForm path)

/-- Places are counted from one. -/
def number (registry : SourceRegistry) (path : Bytes) : UInt32 :=
  (registry.place path + 1).toUInt32

/-- A registry with a path behind all others, unless it is registered already. -/
def adding (registry : SourceRegistry) (path : Bytes) : SourceRegistry :=
  if registry.Knows path then registry else ⟨registry.paths ++ [Path.normalForm path]⟩

theorem register_eq (registry : SourceRegistry) (path : Bytes) :
    registry.register path = (registry.number path, registry.adding path) := by
  unfold register number place adding
  rw [List.idxOf_eq_getD_idxOf?]
  cases found : registry.paths.idxOf? (Path.normalForm path) with
  | some place =>
      have known : registry.Knows path :=
        List.isSome_idxOf?.mp (Option.isSome_of_eq_some found)
      rw [if_pos known]
      simp only [found]
      rfl
  | none =>
      have unknown : ¬registry.Knows path := List.idxOf?_eq_none_iff.mp found
      rw [if_neg unknown]
      simp only [found]
      rfl

/-! ## What stays as registries grow -/

/-- The registry `later` came of `earlier` by further registrations. -/
def Extends (later earlier : SourceRegistry) : Prop :=
  earlier.paths <+: later.paths

theorem Extends.refl (registry : SourceRegistry) : registry.Extends registry :=
  List.prefix_rfl

theorem Extends.trans (second : last.Extends later) (first : later.Extends earlier) :
    last.Extends earlier :=
  List.IsPrefix.trans first second

theorem extends_adding (registry : SourceRegistry) (path : Bytes) :
    (registry.adding path).Extends registry := by
  unfold adding
  split
  · exact Extends.refl registry
  · exact List.prefix_append _ _

theorem knows_adding (registry : SourceRegistry) (path : Bytes) :
    (registry.adding path).Knows path := by
  unfold adding
  split
  · assumption
  · exact List.mem_append_right _ (List.mem_singleton_self _)

theorem place_adding (registry : SourceRegistry) (path : Bytes) :
    (registry.adding path).place path = registry.place path := by
  unfold adding place
  split
  · rfl
  · next unknown =>
    rw [List.idxOf_append_of_notMem unknown, List.idxOf_cons_self, Nat.add_zero]
    exact (List.idxOf_of_notMem unknown).symm

theorem number_adding (registry : SourceRegistry) (path : Bytes) :
    (registry.adding path).number path = registry.number path := by
  rw [number, number, place_adding]

theorem Extends.knows (extension : later.Extends earlier) (known : earlier.Knows path) :
    later.Knows path :=
  List.IsPrefix.subset extension known

theorem Extends.place_eq (extension : later.Extends earlier) (known : earlier.Knows path) :
    later.place path = earlier.place path :=
  (List.IsPrefix.idxOf_eq_of_mem extension known).symm

theorem Extends.number_eq (extension : later.Extends earlier) (known : earlier.Knows path) :
    later.number path = earlier.number path := by
  rw [number, number, extension.place_eq known]

/-- As far as numbers count, the number of a registered path leads to it. -/
theorem path_number (known : registry.Knows path) (counts : registry.place path + 1 < UInt32.size) :
    registry.number path ≠ 0 ∧ registry.path (registry.number path) = Path.normalForm path := by
  have counted : (registry.number path).toNat = registry.place path + 1 :=
    Nat.mod_eq_of_lt counts
  have nonzero : registry.number path ≠ 0 := by
    intro zero
    rw [zero] at counted
    cases counted
  have found : registry.paths[registry.place path]? = some (Path.normalForm path) :=
    List.getElem?_idxOf known
  refine ⟨nonzero, ?_⟩
  rw [SourceRegistry.path, if_neg nonzero, counted, Nat.add_sub_cancel,
    List.getD_eq_getElem?_getD, found, Option.getD_some]

end OpcodeCatalog.SourceRegistry

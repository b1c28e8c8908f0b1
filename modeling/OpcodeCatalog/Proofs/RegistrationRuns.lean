import OpcodeCatalog.Proofs.NormalPaths
import OpcodeCatalog.Proofs.RegisteredPaths
import Mathlib.Algebra.Group.Nat.Defs
import Mathlib.Data.List.GetD

/-!
# Runs of registrations

Where paths are registered one after the other, the different normal forms among
them are numbered from one in the order in which they first come.  A number is handed
out again for every path with its normal form and leads to that form ever after.
-/

namespace OpcodeCatalog.SourceRegistry

/-- The numbers that are handed out for paths one after the other, and the registry that is
left behind. -/
def registerAll (registry : SourceRegistry) : List Bytes → List UInt32 × SourceRegistry
  | [] => ([], registry)
  | path :: later =>
    let (number, next) := registry.register path
    let (numbers, last) := next.registerAll later
    (number :: numbers, last)

/-- What the numbers tell that were handed out for paths. -/
structure Numbered (paths : List Bytes) (numbers : List UInt32) (registry : SourceRegistry) :
    Prop where
  /-- Each normal form is registered once, where it first comes. -/
  registered : registry.paths = (paths.map Path.normalForm).eraseDups
  /-- The number of a path tells the place of its normal form, counted from one. -/
  handedOut : numbers.map UInt32.toNat =
    paths.map fun path => registry.paths.idxOf (Path.normalForm path) + 1
  /-- No number is left out. -/
  dense : ∀ number : UInt32,
    number ∈ numbers ↔ 1 ≤ number.toNat ∧ number.toNat ≤ registry.paths.length
  same : ∀ (call other : Nat) (path path' : Bytes) (number number' : UInt32),
    paths[call]? = some path → numbers[call]? = some number →
    paths[other]? = some path' → numbers[other]? = some number' →
      (number = number' ↔ Path.normalForm path = Path.normalForm path')
  /-- Registering what a number leads to registers nothing new. -/
  again : ∀ number : UInt32, 1 ≤ number.toNat → number.toNat ≤ registry.paths.length →
    registry.register (registry.path number) = (number, registry)
  unknown : ∀ number : UInt32, number = 0 ∨ registry.paths.length < number.toNat →
    registry.path number = []

/-! ## One registration more -/

theorem registerAll_cons (registry : SourceRegistry) (path : Bytes) (later : List Bytes) :
    registry.registerAll (path :: later) =
      (registry.number path :: ((registry.adding path).registerAll later).1,
        ((registry.adding path).registerAll later).2) := by
  rw [registerAll, register_eq]

theorem registerAll_append (registry : SourceRegistry) (earlier later : List Bytes) :
    registry.registerAll (earlier ++ later) =
      ((registry.registerAll earlier).1 ++ ((registry.registerAll earlier).2.registerAll later).1,
        ((registry.registerAll earlier).2.registerAll later).2) := by
  induction earlier generalizing registry with
  | nil => rfl
  | cons path earlier induction =>
      rw [List.cons_append, registerAll_cons, registerAll_cons, induction, List.cons_append]

theorem registerAll_concat (registry : SourceRegistry) (earlier : List Bytes) (path : Bytes) :
    registry.registerAll (earlier ++ [path]) =
      ((registry.registerAll earlier).1 ++ [(registry.registerAll earlier).2.number path],
        (registry.registerAll earlier).2.adding path) := by
  rw [registerAll_append, registerAll_cons]
  rfl

theorem eraseDups_concat (earlier : List Bytes) (last : Bytes) :
    (earlier ++ [last]).eraseDups =
      if last ∈ earlier then earlier.eraseDups else earlier.eraseDups ++ [last] := by
  rw [List.eraseDups_append]
  by_cases known : last ∈ earlier <;> simp [List.removeAll, known, List.eraseDups_cons]

/-- The induction is on the paths from the last one, which is added to what those before it
left behind. -/
theorem paths_registerAll (paths : List Bytes) :
    (registerAll {} paths).2.paths = (paths.map Path.normalForm).eraseDups := by
  induction paths using List.reverseRecOn with
  | nil => rfl
  | append_singleton earlier path induction =>
      have known : (registerAll {} earlier).2.Knows path ↔
          Path.normalForm path ∈ earlier.map Path.normalForm := by
        rw [Knows, induction, List.mem_eraseDups]
      rw [registerAll_concat, List.map_append, List.map_singleton, eraseDups_concat, adding]
      simp only [known]
      split
      · exact induction
      · simp only [induction]

theorem knows_registerAll {paths : List Bytes} {path : Bytes} (member : path ∈ paths) :
    (registerAll {} paths).2.Knows path := by
  rw [Knows, paths_registerAll, List.mem_eraseDups]
  exact List.mem_map_of_mem member

theorem numbers_registerAll (paths : List Bytes) :
    (registerAll {} paths).1 = paths.map (registerAll {} paths).2.number := by
  induction paths using List.reverseRecOn with
  | nil => rfl
  | append_singleton earlier path induction =>
      simp only [registerAll_concat, List.map_append, List.map_singleton, number_adding,
        induction, List.append_cancel_right_eq]
      apply List.map_congr_left
      intro other member
      exact ((extends_adding _ path).number_eq (knows_registerAll member)).symm

theorem adding_nodup {registry : SourceRegistry} (distinct : registry.paths.Nodup)
    (path : Bytes) : (registry.adding path).paths.Nodup := by
  unfold adding
  split
  · exact distinct
  · next unknown =>
    apply List.nodup_append.mpr
    refine ⟨distinct, by simp, ?_⟩
    intro earlier member last isLast same
    rw [List.mem_singleton.mp isLast] at same
    rw [same] at member
    exact unknown member

theorem length_adding_le (registry : SourceRegistry) (path : Bytes) :
    (registry.adding path).paths.length ≤ registry.paths.length + 1 := by
  unfold adding
  split
  · exact Nat.le_succ _
  · exact Nat.le_of_eq List.length_append

theorem registerAll_nodup (paths : List Bytes) : (registerAll {} paths).2.paths.Nodup := by
  induction paths using List.reverseRecOn with
  | nil => exact List.nodup_nil
  | append_singleton earlier path induction =>
      rw [registerAll_concat]
      exact adding_nodup induction path

theorem length_registerAll_le (paths : List Bytes) :
    (registerAll {} paths).2.paths.length ≤ paths.length := by
  induction paths using List.reverseRecOn with
  | nil => exact Nat.le_refl 0
  | append_singleton earlier path induction =>
      rw [registerAll_concat, List.length_append, List.length_singleton]
      exact Nat.le_trans (length_adding_le _ path) (Nat.add_le_add_right induction 1)

/-! ## Registries whose numbers count -/

section Counting

variable {registry : SourceRegistry} {path : Bytes} (counts : registry.paths.length < 2 ^ 32)

include counts

theorem toNat_number (known : registry.Knows path) :
    (registry.number path).toNat = registry.paths.idxOf (Path.normalForm path) + 1 := by
  have inside : registry.paths.idxOf (Path.normalForm path) < registry.paths.length :=
    List.idxOf_lt_length_of_mem known
  apply Nat.mod_eq_of_lt
  unfold place
  omega

theorem number_eq_iff {path' : Bytes} (known : registry.Knows path)
    (known' : registry.Knows path') :
    registry.number path = registry.number path' ↔
      Path.normalForm path = Path.normalForm path' := by
  rw [← UInt32.toNat_inj, toNat_number counts known, toNat_number counts known',
    Nat.add_right_cancel_iff, List.idxOf_inj known]

end Counting

/-- What a number leads to is the path at its place. -/
theorem path_eq_getElem {registry : SourceRegistry} {number : UInt32} {place : Nat}
    (inside : place < registry.paths.length)
    (counted : number.toNat = place + 1) : registry.path number = registry.paths[place] := by
  have nonzero : number ≠ 0 := by
    rintro rfl
    cases counted
  unfold SourceRegistry.path
  rw [if_neg nonzero, counted, Nat.add_sub_cancel, List.getD_eq_getElem _ _ inside]

theorem path_of_unknown {registry : SourceRegistry} {number : UInt32}
    (unknown : number = 0 ∨ registry.paths.length < number.toNat) : registry.path number = [] := by
  unfold SourceRegistry.path
  by_cases zero : number = 0
  · rw [if_pos zero]
  · rw [if_neg zero]
    have above := unknown.resolve_left zero
    apply List.getD_eq_default
    omega

/-! ## Whole runs -/

section Runs

variable {paths : List Bytes}

theorem exists_call_of_mem {normal : Bytes} (member : normal ∈ (registerAll {} paths).2.paths) :
    ∃ path ∈ paths, Path.normalForm path = normal := by
  rw [paths_registerAll, List.mem_eraseDups] at member
  exact List.mem_map.mp member

theorem normalForm_of_mem_registerAll {normal : Bytes}
    (member : normal ∈ (registerAll {} paths).2.paths) : Path.normalForm normal = normal := by
  obtain ⟨path, _, rfl⟩ := exists_call_of_mem member
  exact Path.normalForm_normalForm path

theorem mem_of_numbered {call : Nat} {path : Bytes} {number : UInt32}
    (asked : paths[call]? = some path) (handed : (registerAll {} paths).1[call]? = some number) :
    path ∈ paths ∧ number = (registerAll {} paths).2.number path := by
  rw [numbers_registerAll, List.getElem?_map, asked] at handed
  exact ⟨List.mem_of_getElem? asked, (Option.some.inj handed).symm⟩

theorem exists_place {count : Nat} {number : UInt32} (positive : 1 ≤ number.toNat)
    (most : number.toNat ≤ count) : ∃ place, place < count ∧ number.toNat = place + 1 :=
  ⟨number.toNat - 1, by omega, by omega⟩

/-- The place of a registered path is where it stands, as no path is registered twice. -/
theorem number_eq_of_getElem (counts : (registerAll {} paths).2.paths.length < 2 ^ 32)
    {path : Bytes} {number : UInt32} {place : Nat}
    (inside : place < (registerAll {} paths).2.paths.length)
    (form : Path.normalForm path = (registerAll {} paths).2.paths[place])
    (counted : number.toNat = place + 1) : (registerAll {} paths).2.number path = number := by
  have known : (registerAll {} paths).2.Knows path := by
    rw [Knows, form]
    exact List.getElem_mem inside
  apply UInt32.toNat_inj.mp
  rw [toNat_number counts known, form, counted,
    List.Nodup.idxOf_getElem (registerAll_nodup paths) place inside]

variable (few : paths.length < 2 ^ 32)

include few

theorem length_registerAll_lt : (registerAll {} paths).2.paths.length < 2 ^ 32 :=
  Nat.lt_of_le_of_lt (length_registerAll_le paths) few

theorem mem_registerAll_iff (number : UInt32) :
    number ∈ (registerAll {} paths).1 ↔
      1 ≤ number.toNat ∧ number.toNat ≤ (registerAll {} paths).2.paths.length := by
  have counts := length_registerAll_lt few
  constructor
  · intro member
    rw [numbers_registerAll] at member
    obtain ⟨path, asked, rfl⟩ := List.mem_map.mp member
    have known := knows_registerAll asked
    have inside := List.idxOf_lt_length_of_mem known
    rw [toNat_number counts known]
    exact ⟨Nat.le_add_left 1 _, inside⟩
  · rintro ⟨positive, most⟩
    obtain ⟨place, inside, counted⟩ := exists_place positive most
    obtain ⟨path, asked, form⟩ := exists_call_of_mem (List.getElem_mem inside)
    rw [numbers_registerAll, ← number_eq_of_getElem counts inside form counted]
    exact List.mem_map_of_mem asked

theorem register_path (number : UInt32) (positive : 1 ≤ number.toNat)
    (most : number.toNat ≤ (registerAll {} paths).2.paths.length) :
    (registerAll {} paths).2.register ((registerAll {} paths).2.path number) =
      (number, (registerAll {} paths).2) := by
  obtain ⟨place, inside, counted⟩ := exists_place positive most
  have registered := path_eq_getElem inside counted
  have member := List.getElem_mem inside
  have form := normalForm_of_mem_registerAll member
  rw [← registered] at form member
  have known : (registerAll {} paths).2.Knows ((registerAll {} paths).2.path number) := by
    rw [Knows, form]
    exact member
  rw [register_eq, adding, if_pos known,
    number_eq_of_getElem (length_registerAll_lt few) inside (form.trans registered) counted]

theorem numbered_registerAll :
    Numbered paths (registerAll {} paths).1 (registerAll {} paths).2 := by
  have counts := length_registerAll_lt few
  constructor
  case registered => exact paths_registerAll paths
  case handedOut =>
    rw [numbers_registerAll, List.map_map]
    apply List.map_congr_left
    intro path member
    exact toNat_number counts (knows_registerAll member)
  case dense => exact mem_registerAll_iff few
  case same =>
    intro call other path path' number number' asked handed asked' handed'
    obtain ⟨member, rfl⟩ := mem_of_numbered asked handed
    obtain ⟨member', rfl⟩ := mem_of_numbered asked' handed'
    exact number_eq_iff counts (knows_registerAll member) (knows_registerAll member')
  case again => exact register_path few
  case unknown =>
    intro number unknown
    exact path_of_unknown unknown

/-- A number leads to its path as soon as it is handed out. -/
theorem path_registerAll_take {call count : Nat} {path : Bytes} {number : UInt32}
    (asked : paths[call]? = some path) (handed : (registerAll {} paths).1[call]? = some number)
    (made : call < count) :
    (registerAll {} (paths.take count)).2.path number = Path.normalForm path := by
  have askedHere : (paths.take count)[call]? = some path := by
    rw [List.getElem?_take_of_lt made, asked]
  have handedHere : (registerAll {} (paths.take count)).1[call]? = some number := by
    have inside : call < (registerAll {} (paths.take count)).1.length := by
      rw [numbers_registerAll, List.length_map]
      exact (List.getElem?_eq_some_iff.mp askedHere).1
    rw [← List.take_append_drop count paths, registerAll_append,
      List.getElem?_append_left inside] at handed
    exact handed
  obtain ⟨member, rfl⟩ := mem_of_numbered askedHere handedHere
  have fewer : (paths.take count).length < 2 ^ 32 :=
    Nat.lt_of_le_of_lt (List.length_take_le' count paths) few
  have known := knows_registerAll member
  have inside : (registerAll {} (paths.take count)).2.place path <
      (registerAll {} (paths.take count)).2.paths.length :=
    List.idxOf_lt_length_of_mem known
  have counts := length_registerAll_lt fewer
  exact (path_number known (Nat.lt_of_le_of_lt inside counts)).2

end Runs

/-- Whatever fewer than `2 ^ 32` paths are registered one after the other: what is registered are
their normal forms, which are their own normal forms; they are numbered from one in the order in
which they first come; and a number leads to its path from the moment it is handed out. -/
theorem registerAll_numbers_normalForms {paths : List Bytes} (few : paths.length < 2 ^ 32) :
    (∀ path normal, Path.NormalizesTo path normal ↔ normal = Path.normalForm path) ∧
      (∀ path, Path.normalForm (Path.normalForm path) = Path.normalForm path) ∧
      Numbered paths (registerAll {} paths).1 (registerAll {} paths).2 ∧
      ∀ (call count : Nat) (path : Bytes) (number : UInt32), paths[call]? = some path →
        (registerAll {} paths).1[call]? = some number → call < count →
          (registerAll {} (paths.take count)).2.path number = Path.normalForm path := by
  refine ⟨?_, Path.normalForm_normalForm, numbered_registerAll few, ?_⟩
  · intro path normal
    exact Path.normalizesTo_iff
  · intro call count path number asked handed made
    exact path_registerAll_take few asked handed made

theorem registerAll_numbers_normalForms_spellings :
    let paths := [ascii "static_db/../static_db/x.ron", ascii "static_db//x.ron",
      ascii "static_db/y.ron", ascii "/../a//b/./", ascii "a/.."]
    paths.length < 2 ^ 32 ∧ (registerAll {} paths).1 = [1, 1, 2, 3, 4] ∧
      (registerAll {} paths).2.paths =
        [ascii "static_db/x.ron", ascii "static_db/y.ron", ascii "/a/b/", ascii "."] ∧
      Numbered paths (registerAll {} paths).1 (registerAll {} paths).2 ∧
      (registerAll {} (paths.take 2)).2.path 1 = ascii "static_db/x.ron" := by
  intro paths
  have few : paths.length < 2 ^ 32 := by decide
  have numbers : (registerAll {} paths).1 = [1, 1, 2, 3, 4] := by decide
  obtain ⟨_, _, numbered, leads⟩ := registerAll_numbers_normalForms few
  refine ⟨few, numbers, by decide, numbered, ?_⟩
  rw [leads 1 2 (ascii "static_db//x.ron") 1 rfl (by rw [numbers]; rfl) (by decide)]
  decide

end OpcodeCatalog.SourceRegistry

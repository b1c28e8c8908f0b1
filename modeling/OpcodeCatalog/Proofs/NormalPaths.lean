import OpcodeCatalog.Path
import Mathlib.Data.List.Basic
import Mathlib.Data.List.Induction
import Mathlib.Logic.Relation
import Mathlib.Order.WellFounded

/-!
# Normal forms of paths

A path is brought to its normal form by taking names out of it: `.` wherever it
stands, a name together with the `..` behind it, and `..` directly below the root.
Taking out one of them after the other, in whatever order, ends at the same path.
Nothing can be taken out of that path, so a normal form is its own normal form.
-/

namespace OpcodeCatalog.Path

/-! ## The rules -/

/-- The names in a path, with an empty one behind a slash at the end.  Several slashes in a row
count as one. -/
def names (path : Bytes) : List Bytes :=
  components path ++ if endsInSlash path then [[]] else []

/-- The path with such names. -/
def ofNames (rooted : Bool) (names : List Bytes) : Bytes :=
  (if rooted then [Ascii.slash] else []) ++ [Ascii.slash].intercalate names

/-- What stands in place of names that are taken out in front of others.  The slash in front of
them stays, so that the path ends in a slash if they were the last ones. -/
def leaving (after : List Bytes) : List Bytes :=
  if after = [] then [[]] else after

/-- Takes names, or the slash behind `..`, out of a path. -/
inductive Simplifies (rooted : Bool) : List Bytes → List Bytes → Prop where
  | here {before after : List Bytes} :
      Simplifies rooted (before ++ here :: after) (before ++ leaving after)
  | cancelled {before after : List Bytes} {name : Bytes} :
      name ≠ [] → name ≠ Path.here → name ≠ parent →
      Simplifies rooted (before ++ name :: parent :: after) (before ++ leaving after)
  | aboveRoot {after : List Bytes} :
      rooted = true → Simplifies rooted (parent :: after) (leaving after)
  | trailing {before : List Bytes} :
      Simplifies rooted (before ++ [parent, []]) (before ++ [parent])

/-- Nothing can be taken out. -/
def Simple (rooted : Bool) (names : List Bytes) : Prop :=
  ∀ further, ¬ Simplifies rooted names further

/-- How paths are normalized: one takes out what one can, and writes `.` if nothing is left. -/
inductive NormalizesTo : Bytes → Bytes → Prop where
  | empty : NormalizesTo [] []
  | simplified {path : Bytes} {last : List Bytes} :
      path ≠ [] →
      Relation.ReflTransGen (Simplifies (isRooted path)) (names path) last →
      Simple (isRooted path) last →
      ofNames (isRooted path) last ≠ [] →
      NormalizesTo path (ofNames (isRooted path) last)
  | nothing {path : Bytes} {last : List Bytes} :
      path ≠ [] →
      Relation.ReflTransGen (Simplifies (isRooted path)) (names path) last →
      Simple (isRooted path) last →
      ofNames (isRooted path) last = [] →
      NormalizesTo path here

/-! ## What the rules keep -/

variable {rooted : Bool} {path : Bytes} {left right : List Bytes}

/-- The names of some path: only the last one may be empty. -/
structure AreNames (names : List Bytes) : Prop where
  nonempty : names ≠ []
  inner : [] ∉ names.dropLast
  plain : ∀ name ∈ names, Ascii.slash ∉ name

theorem slash_notMem_of_mem_splitOn {path name : Bytes}
    (member : name ∈ path.splitOn Ascii.slash) : Ascii.slash ∉ name := by
  induction path generalizing name with
  | nil =>
      simp only [List.splitOn_nil, List.mem_singleton] at member
      simp [member]
  | cons byte path induction =>
      rw [List.splitOn_cons_eq_if_modifyHead] at member
      by_cases slash : byte = Ascii.slash
      · simp only [slash, beq_self_eq_true, if_true, List.mem_cons] at member
        rcases member with rfl | later
        · exact List.not_mem_nil
        · exact induction later
      · simp only [beq_eq_false_iff_ne.mpr slash, Bool.false_eq_true, if_false] at member
        cases split : path.splitOn Ascii.slash with
        | nil => exact (List.splitOn_ne_nil _ _ split).elim
        | cons first others =>
            rw [split] at member induction
            rcases List.mem_cons.mp member with rfl | later
            · simp [Ne.symm slash, induction List.mem_cons_self]
            · exact induction (List.mem_cons_of_mem _ later)

theorem intercalate_concat {init : List Bytes} (nonempty : init ≠ []) (last : Bytes) :
    [Ascii.slash].intercalate (init ++ [last]) =
      [Ascii.slash].intercalate init ++ Ascii.slash :: last := by
  induction init with
  | nil => exact (nonempty rfl).elim
  | cons first init induction =>
      cases init with
      | nil => simp [List.intercalate_cons_cons]
      | cons second init =>
          have later := induction nofun
          simp only [List.cons_append] at later ⊢
          simp only [List.intercalate_cons_cons, later, List.append_assoc]

theorem ofNames_concat {init : List Bytes} (nonempty : init ≠ []) (last : Bytes) :
    ofNames rooted (init ++ [last]) = ofNames rooted init ++ Ascii.slash :: last := by
  simp only [ofNames, intercalate_concat nonempty, List.append_assoc]

theorem endsInSlash_concat (text : Bytes) (byte : UInt8) :
    endsInSlash (text ++ [byte]) = (byte == Ascii.slash) := by
  simp [endsInSlash]

theorem nonempty_of_mem_components {name : Bytes} (member : name ∈ components path) :
    name ≠ [] := by
  simpa using (List.mem_filter.mp member).2

theorem names_ne_nil (nonempty : path ≠ []) : names path ≠ [] := by
  intro empty
  obtain ⟨noComponents, noSlash⟩ := List.append_eq_nil_iff.mp empty
  have allEmpty : ∀ name ∈ path.splitOn Ascii.slash, name = [] := by
    simpa [components, List.filter_eq_nil_iff] using noComponents
  have joined : [Ascii.slash].intercalate (path.splitOn Ascii.slash) = path :=
    List.intercalate_splitOn Ascii.slash
  rcases List.eq_nil_or_concat' (path.splitOn Ascii.slash) with none | ⟨init, last, split⟩
  · exact List.splitOn_ne_nil _ _ none
  · have lastEmpty : last = [] := allEmpty last (by simp [split])
    rw [split, lastEmpty] at joined
    by_cases alone : init = []
    · apply nonempty
      simpa [alone] using joined.symm
    · rw [intercalate_concat alone] at joined
      have slash : endsInSlash path = true := by
        rw [← joined, endsInSlash_concat, beq_self_eq_true]
      simp [slash] at noSlash

theorem areNames_names (nonempty : path ≠ []) : AreNames (names path) where
  nonempty := names_ne_nil nonempty
  inner := by
    unfold names
    split
    · rw [List.dropLast_concat]
      exact fun member => nonempty_of_mem_components member rfl
    · rw [List.append_nil]
      exact fun member => nonempty_of_mem_components (List.dropLast_subset _ member) rfl
  plain := by
    intro name member
    rcases List.mem_append.mp member with component | last
    · exact slash_notMem_of_mem_splitOn (List.mem_filter.mp component).1
    · split at last <;> simp_all

theorem leaving_ne_nil (after : List Bytes) : leaving after ≠ [] := by
  unfold leaving
  split
  · exact List.cons_ne_nil _ _
  · assumption

theorem mem_of_mem_leaving {after : List Bytes} {name : Bytes} (member : name ∈ leaving after) :
    name = [] ∨ name ∈ after := by
  unfold leaving at member
  split at member
  · exact .inl (List.mem_singleton.mp member)
  · exact .inr member

theorem AreNames.leaving {before removed after : List Bytes} (something : removed ≠ [])
    (areNames : AreNames (before ++ (removed ++ after))) : AreNames (before ++ leaving after) where
  nonempty := List.append_ne_nil_of_right_ne_nil _ (leaving_ne_nil after)
  inner := by
    have inner := areNames.inner
    by_cases last : after = []
    · simp_all [Path.leaving, List.dropLast_append_of_ne_nil]
    · simp_all [Path.leaving, List.dropLast_append_of_ne_nil]
  plain := by
    intro name member
    rcases List.mem_append.mp member with early | late
    · exact areNames.plain name (List.mem_append_left _ early)
    · rcases mem_of_mem_leaving late with rfl | late
      · exact List.not_mem_nil
      · exact areNames.plain name (by simp [late])

theorem Simplifies.areNames (simplifies : Simplifies rooted left right)
    (areNames : AreNames left) : AreNames right := by
  cases simplifies with
  | @here before after => exact @AreNames.leaving before [Path.here] after nofun areNames
  | @cancelled before after name _ _ _ =>
      exact @AreNames.leaving before [name, parent] after nofun areNames
  | @aboveRoot after _ => exact @AreNames.leaving [] [parent] after nofun areNames
  | @trailing before =>
      constructor
      · simp
      · have inner := areNames.inner
        simp_all [List.dropLast_append_of_ne_nil]
      · intro name member
        apply areNames.plain
        rcases List.mem_append.mp member with early | last
        · simp [early]
        · simp [List.mem_singleton.mp last]

/-- The names that are kept where names are added one after the other, last one first. -/
def kept (rooted : Bool) (names : List Bytes) : List Bytes :=
  (names.filter (· ≠ [])).foldl (addComponent rooted) []

/-- Whether the last name can only name a directory. -/
def endsInDirectory (names : List Bytes) : Bool :=
  names.getLast?.any fun last => last == [] || last == here || last == parent

/-- The normal form as it is worked out. -/
def settled (rooted : Bool) (names : List Bytes) : Bytes :=
  match kept rooted names with
  | [] => if rooted then [Ascii.slash] else here
  | last :: before =>
    ofComponents rooted (last :: before) (last ≠ parent && endsInDirectory names)

theorem filter_names (path : Bytes) : (names path).filter (· ≠ []) = components path := by
  unfold names
  have whole : (components path).filter (· ≠ []) = components path := by
    simp [components]
  split <;> simp_all

theorem endsInDirectory_names (path : Bytes) :
    endsInDirectory (names path) = namesDirectory path := by
  unfold endsInDirectory names namesDirectory
  by_cases slash : endsInSlash path = true
  · simp [slash]
  · simp only [slash, Bool.false_eq_true, if_false, List.append_nil, Bool.false_or]
    cases last : (components path).getLast? with
    | none => simp
    | some name =>
        have nonempty := nonempty_of_mem_components (List.mem_of_getLast? last)
        simp [List.isEmpty_eq_false_iff.mpr nonempty]

theorem normalForm_eq_settled (nonempty : path ≠ []) :
    normalForm path = settled (isRooted path) (names path) := by
  have same : kept (isRooted path) (names path) =
      (components path).foldl (addComponent (isRooted path)) [] := by
    rw [kept, filter_names]
  rw [settled, same, endsInDirectory_names]
  exact if_neg nonempty

theorem kept_append (before after : List Bytes) :
    kept rooted (before ++ after) =
      (after.filter (· ≠ [])).foldl (addComponent rooted) (kept rooted before) := by
  simp [kept]

theorem addComponent_here (names : List Bytes) : addComponent rooted names here = names := by
  simp [addComponent]

theorem addComponent_cancelled {name : Bytes} (notHere : name ≠ here) (notParent : name ≠ parent)
    (names : List Bytes) :
    addComponent rooted (addComponent rooted names name) parent = names := by
  have parentNotHere : parent ≠ here := by decide
  simp [addComponent, notHere, notParent, parentNotHere]

theorem filter_leaving (after : List Bytes) :
    (leaving after).filter (· ≠ []) = after.filter (· ≠ []) := by
  unfold leaving
  split <;> simp_all

theorem Simplifies.kept_eq (simplifies : Simplifies rooted left right) :
    kept rooted left = kept rooted right := by
  cases simplifies with
  | @here before after =>
      rw [kept_append, kept_append, filter_leaving]
      have isName : Path.here ≠ [] := by decide
      simp [isName, addComponent_here]
  | @cancelled before after name isName notHere notParent =>
      rw [kept_append, kept_append, filter_leaving]
      have parentIsName : parent ≠ [] := by decide
      simp [isName, parentIsName, addComponent_cancelled notHere notParent]
  | @aboveRoot after isRooted =>
      unfold kept
      rw [filter_leaving]
      have parentIsName : parent ≠ [] := by decide
      have parentNotHere : parent ≠ Path.here := by decide
      simp [parentIsName, addComponent, parentNotHere, isRooted]
  | @trailing before =>
      rw [kept_append, kept_append]
      rfl

/-- Names taken out at the end leave the slash in front of them, which tells of a directory as
they did. -/
theorem endsInDirectory_leaving {removed : List Bytes} (directory : endsInDirectory removed = true)
    (before after : List Bytes) :
    endsInDirectory (before ++ (removed ++ after)) = endsInDirectory (before ++ leaving after) := by
  unfold leaving
  by_cases last : after = []
  · subst last
    have someLast : removed.getLast? ≠ none := by
      intro none
      simp [endsInDirectory, none] at directory
    obtain ⟨name, lastName⟩ := Option.ne_none_iff_exists'.mp someLast
    simp_all [endsInDirectory, List.getLast?_append]
  · obtain ⟨init, name, rfl⟩ := (List.eq_nil_or_concat' after).resolve_left last
    simp [endsInDirectory, ← List.append_assoc]

theorem Simplifies.endsInDirectory_eq (simplifies : Simplifies rooted left right) :
    endsInDirectory left = endsInDirectory right := by
  cases simplifies with
  | @here before after =>
      exact @endsInDirectory_leaving [Path.here] (by decide) before after
  | @cancelled before after name _ _ _ =>
      exact @endsInDirectory_leaving [name, parent] (by simp [endsInDirectory]) before after
  | @aboveRoot after _ =>
      exact @endsInDirectory_leaving [parent] (by decide) [] after
  | @trailing before => simp [endsInDirectory]

theorem Simplifies.settled_eq (simplifies : Simplifies rooted left right) :
    settled rooted left = settled rooted right := by
  unfold settled
  rw [simplifies.kept_eq, simplifies.endsInDirectory_eq]

/-- Each step makes the path shorter. -/
theorem Simplifies.shorter (simplifies : Simplifies rooted left right) :
    right.length + right.flatten.length < left.length + left.flatten.length := by
  have hereShows : Path.here.length = 1 := rfl
  have parentShows : parent.length = 2 := rfl
  cases simplifies with
  | @here before after =>
      by_cases last : after = []
      · simp [leaving, last, hereShows]
      · simp [leaving, last, hereShows]
        omega
  | @cancelled before after name _ _ _ =>
      by_cases last : after = []
      · simp [leaving, last, parentShows]
        omega
      · simp [leaving, last, parentShows]
        omega
  | @aboveRoot after _ =>
      by_cases last : after = []
      · simp [leaving, last, parentShows]
      · simp [leaving, last, parentShows]
        omega
  | @trailing before => simp

theorem exists_simple (rooted : Bool) (names : List Bytes) :
    ∃ last, Relation.ReflTransGen (Simplifies rooted) names last ∧ Simple rooted last := by
  let size (names : List Bytes) : Nat := names.length + names.flatten.length
  obtain ⟨last, reached, least⟩ := (measure size).wf.has_min
    {last | Relation.ReflTransGen (Simplifies rooted) names last} ⟨names, .refl⟩
  refine ⟨last, reached, ?_⟩
  intro further simplifies
  exact least further (reached.tail simplifies) simplifies.shorter

/-! ## Where the rules end -/

namespace Simple

variable {names before after : List Bytes} {name : Bytes}

theorem here_notMem (simple : Simple rooted names) : here ∉ names := by
  intro member
  obtain ⟨before, after, rfl⟩ := List.append_of_mem member
  exact simple _ .here

theorem eq_parent_of_before (simple : Simple rooted names) (nonempty : name ≠ [])
    (split : names = before ++ name :: parent :: after) : name = parent := by
  by_contra notParent
  have notHere : name ≠ here := by
    rintro rfl
    exact simple.here_notMem (by simp [split])
  subst split
  exact simple _ (.cancelled nonempty notHere notParent)

theorem head?_ne_parent (simple : Simple true names) : names.head? ≠ some parent := by
  intro first
  obtain ⟨after, rfl⟩ := List.head?_eq_some_iff.mp first
  exact simple _ (.aboveRoot rfl)

end Simple

/-- Where nothing can be taken out, every name is kept.  The induction is on the names from the
last one, whose effect depends on the one before it. -/
theorem foldl_addComponent_of_simple {names after : List Bytes} (allNames : [] ∉ names)
    (simple : Simple rooted (names ++ after)) :
    names.foldl (addComponent rooted) [] = names.reverse := by
  induction names using List.reverseRecOn generalizing after with
  | nil => rfl
  | append_singleton names last induction =>
      rw [List.mem_append, not_or] at allNames
      rw [List.append_assoc] at simple
      have notHere : last ≠ here := by
        rintro rfl
        exact simple.here_notMem (by simp)
      rw [List.foldl_append, induction allNames.1 simple, List.reverse_append]
      by_cases above : last = parent
      · subst above
        rcases List.eq_nil_or_concat' names with rfl | ⟨earlier, name, rfl⟩
        · cases rooted with
          | false => rfl
          | true => exact (simple.head?_ne_parent rfl).elim
        · have nonempty : name ≠ [] := by
            rintro rfl
            exact allNames.1 (by simp)
          have split : earlier ++ [name] ++ ([parent] ++ after) =
              earlier ++ name :: parent :: after := by simp
          have again : name = parent := simple.eq_parent_of_before nonempty split
          simp [addComponent, again, notHere]
      · simp [addComponent, notHere, above]

theorem kept_of_simple {names : List Bytes} (simple : Simple rooted names) :
    ∀ init tail, names = init ++ tail → [] ∉ init → tail.filter (· ≠ []) = [] →
      kept rooted names = init.reverse := by
  rintro init tail rfl allNames nothing
  have whole : init.filter (· ≠ []) = init := by
    apply List.filter_eq_self.mpr
    intro name member
    exact decide_eq_true (ne_of_mem_of_not_mem member allNames)
  rw [kept, List.filter_append, nothing, List.append_nil, whole]
  exact foldl_addComponent_of_simple allNames simple

theorem settled_of_kept {names before : List Bytes} {last : Bytes}
    (keeps : kept rooted names = last :: before) :
    settled rooted names =
      ofComponents rooted (last :: before) (last ≠ parent && endsInDirectory names) := by
  unfold settled
  rw [keeps]

theorem intercalate_ne_nil {init : List Bytes} {last : Bytes} (nonempty : last ≠ []) :
    [Ascii.slash].intercalate (init ++ [last]) ≠ [] := by
  by_cases alone : init = []
  · simpa [alone] using nonempty
  · simp [intercalate_concat alone]

/-- What is worked out of names of which none can be taken out is their path. -/
theorem settled_of_simple {names : List Bytes} (simple : Simple rooted names)
    (areNames : AreNames names) :
    settled rooted names =
      if ofNames rooted names = [] then here else ofNames rooted names := by
  obtain ⟨init, last, rfl⟩ := (List.eq_nil_or_concat' names).resolve_left areNames.nonempty
  have allNames : [] ∉ init := by simpa using areNames.inner
  by_cases slash : last = []
  · subst slash
    have keeps := kept_of_simple simple init [[]] rfl allNames (by simp)
    rcases List.eq_nil_or_concat' init with rfl | ⟨before, name, rfl⟩
    · cases rooted <;> rfl
    · have notParent : name ≠ parent := by
        rintro rfl
        rw [List.append_assoc] at simple
        exact simple _ .trailing
      rw [List.reverse_concat] at keeps
      rw [settled_of_kept keeps, ofNames_concat (by simp)]
      simp [ofComponents, ofNames, notParent, endsInDirectory]
  · have keeps := kept_of_simple simple (init ++ [last]) [] (by simp)
      (by simp [allNames, Ne.symm slash]) rfl
    have notHere : last ≠ here := by
      rintro rfl
      exact simple.here_notMem (by simp)
    have noDirectory : (last ≠ parent && endsInDirectory (init ++ [last])) = false := by
      by_cases above : last = parent <;> simp [endsInDirectory, slash, notHere, above]
    rw [List.reverse_concat] at keeps
    rw [settled_of_kept keeps, noDirectory]
    simp [ofComponents, ofNames, intercalate_ne_nil slash]

/-- However names are taken out of a path, the end is the same. -/
theorem settled_names_eq {last : List Bytes}
    (reached : Relation.ReflTransGen (Simplifies rooted) left last) (areNames : AreNames left)
    (simple : Simple rooted last) :
    AreNames last ∧ settled rooted left =
      if ofNames rooted last = [] then here else ofNames rooted last := by
  induction reached using Relation.ReflTransGen.head_induction_on with
  | refl => exact ⟨areNames, settled_of_simple simple areNames⟩
  | head simplifies _ induction =>
      rw [simplifies.settled_eq]
      exact induction (simplifies.areNames areNames)

/-- The normal form is what the rules lead to, and they lead to nothing else. -/
theorem normalizesTo_iff {path normal : Bytes} :
    NormalizesTo path normal ↔ normal = normalForm path := by
  constructor
  · intro normalizes
    cases normalizes with
    | empty => rfl
    | simplified nonempty reached simple shown =>
        have same := (settled_names_eq reached (areNames_names nonempty) simple).2
        rw [normalForm_eq_settled nonempty, same, if_neg shown]
    | nothing nonempty reached simple shown =>
        have same := (settled_names_eq reached (areNames_names nonempty) simple).2
        rw [normalForm_eq_settled nonempty, same, if_pos shown]
  · rintro rfl
    by_cases nonempty : path = []
    · subst nonempty
      exact .empty
    · obtain ⟨last, reached, simple⟩ := exists_simple (isRooted path) (names path)
      have same := (settled_names_eq reached (areNames_names nonempty) simple).2
      rw [normalForm_eq_settled nonempty, same]
      by_cases shown : ofNames (isRooted path) last = []
      · rw [if_pos shown]
        exact .nothing nonempty reached simple shown
      · rw [if_neg shown]
        exact .simplified nonempty reached simple shown

/-! ## The normal form of a normal form -/

namespace AreNames

variable {names : List Bytes}

theorem ofNames_eq (areNames : AreNames names) (rooted : Bool) :
    ofNames rooted names = [Ascii.slash].intercalate (if rooted then [] :: names else names) := by
  obtain ⟨first, others, rfl⟩ := List.exists_cons_of_ne_nil areNames.nonempty
  cases rooted <;> simp [ofNames, List.intercalate_cons_cons]

theorem splitOn_ofNames (areNames : AreNames names) (rooted : Bool) :
    (ofNames rooted names).splitOn Ascii.slash = if rooted then [] :: names else names := by
  rw [areNames.ofNames_eq]
  apply List.splitOn_intercalate
  · intro name member
    cases rooted with
    | false => exact areNames.plain name member
    | true =>
        rcases List.mem_cons.mp member with rfl | member
        · exact List.not_mem_nil
        · exact areNames.plain name member
  · cases rooted <;> simp [areNames.nonempty]

theorem isRooted_ofNames (areNames : AreNames names) (shown : ofNames rooted names ≠ []) :
    isRooted (ofNames rooted names) = rooted := by
  cases rooted with
  | true => rfl
  | false =>
      apply Bool.eq_false_iff.mpr
      intro opens
      obtain ⟨rest, front⟩ := List.head?_eq_some_iff.mp (beq_iff_eq.mp opens)
      have split := areNames.splitOn_ofNames false
      simp only [front, List.splitOn_cons_eq_if_modifyHead, beq_self_eq_true, if_true,
        Bool.false_eq_true, if_false] at split
      have inner := areNames.inner
      rw [← split, List.dropLast_cons_of_ne_nil (List.splitOn_ne_nil _ rest)] at inner
      exact inner List.mem_cons_self

theorem components_ofNames (areNames : AreNames names) (rooted : Bool) :
    components (ofNames rooted names) = names.filter (· ≠ []) := by
  unfold components
  rw [areNames.splitOn_ofNames]
  cases rooted <;> simp

theorem endsInSlash_ofNames {init : List Bytes} {last : Bytes}
    (areNames : AreNames (init ++ [last])) (shown : ofNames rooted (init ++ [last]) ≠ []) :
    endsInSlash (ofNames rooted (init ++ [last])) = last.isEmpty := by
  rcases List.eq_nil_or_concat' last with rfl | ⟨text, byte, rfl⟩
  · by_cases alone : init = []
    · subst alone
      cases rooted with
      | true => rfl
      | false => exact (shown rfl).elim
    · rw [ofNames_concat alone, endsInSlash_concat]
      rfl
  · have notSlash : byte ≠ Ascii.slash := by
      rintro rfl
      have plain := areNames.plain (text ++ [Ascii.slash]) (by simp)
      simp at plain
    have nonempty : (text ++ [byte]).isEmpty = false := by simp
    rw [nonempty]
    by_cases alone : init = []
    · simp [alone, ofNames, ← List.append_assoc, endsInSlash_concat, notSlash]
    · rw [ofNames_concat alone, ← List.cons_append, ← List.append_assoc, endsInSlash_concat]
      simp [notSlash]

theorem names_ofNames (areNames : AreNames names) (shown : ofNames rooted names ≠ []) :
    Path.names (ofNames rooted names) = names := by
  obtain ⟨init, last, rfl⟩ := (List.eq_nil_or_concat' names).resolve_left areNames.nonempty
  have whole : init.filter (· ≠ []) = init := by
    apply List.filter_eq_self.mpr
    intro name member
    exact decide_eq_true (ne_of_mem_of_not_mem member (by simpa using areNames.inner))
  unfold Path.names
  rw [areNames.components_ofNames, areNames.endsInSlash_ofNames shown, List.filter_append, whole]
  by_cases slash : last = [] <;> simp [slash]

end AreNames

theorem NormalizesTo.again {normal : Bytes} (normalizes : NormalizesTo path normal) :
    NormalizesTo normal normal := by
  cases normalizes with
  | empty => exact .empty
  | @simplified path last nonempty reached simple shown =>
      have areNames := (settled_names_eq reached (areNames_names nonempty) simple).1
      have sameRoot := areNames.isRooted_ofNames shown
      have again : NormalizesTo (ofNames (isRooted path) last) _ :=
        .simplified shown .refl (by rwa [sameRoot, areNames.names_ofNames shown])
          (by rwa [sameRoot, areNames.names_ofNames shown])
      rwa [sameRoot, areNames.names_ofNames shown] at again
  | nothing => exact normalizesTo_iff.mpr (by decide)

/-- A normal form is its own normal form. -/
theorem normalForm_normalForm (path : Bytes) : normalForm (normalForm path) = normalForm path :=
  (normalizesTo_iff.mp (normalizesTo_iff.mpr rfl).again).symm

example : normalForm (ascii "/a/..//../b/./c/../") = ascii "/b/" := by decide

end OpcodeCatalog.Path

import OpcodeCatalog.Proofs.ArgumentGroups
import OpcodeCatalog.Proofs.RunTranscripts
import Mathlib.Data.List.Forall2

/-!
# Safe arguments

A run may rely on arguments that were accepted: what they ask for fits together, and the
queries among them stand for operands that were parsed, one by one and in their order.
Words that are refused leave one complaint, and the run does nothing else.
-/

namespace OpcodeCatalog.CommandLine

/-- What is told of words on the error channel before anything is done with them. -/
def complaint (settings : Settings) (words : List Bytes) : Bytes :=
  match Arguments.ofWords settings words with
  | .ok _ => []
  | .error fault => fault.render

/-- The arguments are what the groups say on top of settings: the directory is the last one
given, flags are raised only, and each query is its operand parsed. -/
structure Arguments.ReadFrom (settings : Settings) (groups : List WordGroup)
    (arguments : Arguments) : Prop where
  directory : arguments.settings.directory =
    (operands .directory groups).getLast?.getD settings.directory
  extension : arguments.settings.extension = settings.extension
  verify : arguments.settings.verify = (settings.verify || groups.any (·.raises .verify))
  trace : arguments.settings.trace = (settings.trace || groups.any (·.raises .trace))
  valueQueries : List.Forall₂ (fun operand query => SlotQuery.ofOperand? operand = some query)
    (operands .value groups) arguments.valueQueries
  nameQueries : List.Forall₂ (fun operand query => NameQuery.ofOperand? operand = some query)
    (operands .nameOf groups) arguments.nameQueries

theorem forall₂_filterMap {parse : α → Option β} {items : List α}
    (parsed : ∀ item ∈ items, ∃ result, parse item = some result) :
    List.Forall₂ (fun item result => parse item = some result) items (items.filterMap parse) := by
  induction items with
  | nil => exact .nil
  | cons item items induction =>
      rw [List.forall_mem_cons] at parsed
      obtain ⟨⟨result, first⟩, later⟩ := parsed
      rw [List.filterMap_cons_some first]
      exact .cons first (induction later)

/-- Each operand of an option stands in a group of its own. -/
theorem mem_operands_iff {parameter : Parameter} {groups : List WordGroup} {operand : Bytes} :
    operand ∈ operands parameter groups ↔ .option parameter operand ∈ groups := by
  unfold operands
  rw [List.mem_filterMap]
  constructor
  · rintro ⟨group, member, given⟩
    cases group with
    | option own word =>
        obtain ⟨rfl, same⟩ := Option.ite_none_right_eq_some.mp given
        cases same
        exact member
    | single => cases given
  · exact fun member => ⟨_, member, if_pos rfl⟩

namespace Arguments

variable {settings : Settings} {words : List Bytes} {arguments : Arguments}

theorem gathered_readFrom {groups : List WordGroup} (sound : ∀ group ∈ groups, group.Sound) :
    (gathered settings groups).ReadFrom settings groups := by
  refine ⟨rfl, rfl, rfl, rfl, forall₂_filterMap ?_, forall₂_filterMap ?_⟩
  · exact fun operand given => sound _ (mem_operands_iff.mp given)
  · exact fun operand given => sound _ (mem_operands_iff.mp given)

theorem readFrom_of_ofWords {groups : List WordGroup}
    (accepted : ofWords settings (groups.flatMap WordGroup.words) = .ok arguments) :
    arguments.ReadFrom settings groups := by
  obtain ⟨⟨sound, -, rfl⟩, -⟩ := ofWords_groups_eq_ok_iff.mp accepted
  exact gathered_readFrom sound

/-- The value that a query for a name goes by is the one that its text shows. -/
theorem signed32?_text_of_ofWords (accepted : ofWords settings words = .ok arguments)
    {query : NameQuery} (asked : query ∈ arguments.nameQueries) :
    signed32? query.text = some query.value := by
  obtain ⟨groups, rfl⟩ := exists_groups_of_ofWords accepted
  obtain ⟨⟨-, -, rfl⟩, -⟩ := ofWords_groups_eq_ok_iff.mp accepted
  obtain ⟨operand, -, parsed⟩ := List.mem_filterMap.mp asked
  exact (NameQuery.ofOperand?_eq_some_iff.mp parsed).2

end Arguments

/-- Accepted words leave no complaint, and unless they ask for help what they ask for fits
together; they are groups, and the arguments are what these say.  Words that are refused leave
one complaint, and a run ends with it. -/
theorem accepted_safely_or_refused (settings : Settings) (words : List Bytes) :
    (∀ arguments, Arguments.ofWords settings words = .ok arguments →
      complaint settings words = [] ∧
        (arguments.help = false → arguments.Fits) ∧
        (∀ query ∈ arguments.nameQueries, signed32? query.text = some query.value) ∧
        (∃ groups : List WordGroup, words = groups.flatMap WordGroup.words) ∧
        ∀ groups : List WordGroup, words = groups.flatMap WordGroup.words →
          arguments.ReadFrom settings groups) ∧
      ∀ fault, Arguments.ofWords settings words = .error fault →
        complaint settings words =
            ascii "bbscript-db: " ++ fault.message ++ [Ascii.newline] ++ usage ∧
          ∀ contents? environment registry, settings = Settings.inEnvironment {} environment →
            run contents? environment registry words =
              ⟨2, [(.errors, complaint settings words)], registry⟩ := by
  constructor
  · intro arguments accepted
    refine ⟨?_, ?_, ?_, Arguments.exists_groups_of_ofWords accepted, ?_⟩
    · rw [complaint, accepted]
    · intro noHelp
      exact (Arguments.fits_of_ofWords accepted).resolve_left (Bool.eq_false_iff.mp noHelp)
    · intro query asked
      exact Arguments.signed32?_text_of_ofWords accepted asked
    · rintro groups rfl
      exact Arguments.readFrom_of_ofWords accepted
  · intro fault refused
    have told : complaint settings words = fault.render := by
      rw [complaint, refused]
    refine ⟨told, ?_⟩
    rintro contents? environment registry rfl
    rw [told]
    exact run_of_fault refused contents? registry

/-- The directory given last looks like an option, and so does an opcode that is refused. -/
theorem accepted_safely_or_refused_of_optionLikeOperands :
    let settings : Settings := { extension := ascii ".db", verify := true }
    let words := ["--db-dir", "a", "--id", "0x4", "--name-of", "1:-7", "--db-dir", "--trace",
      "--value", "1::x", "game"].map ascii
    let arguments : Arguments := {
      settings := { settings with directory := ascii "--trace" }
      game := ascii "game"
      id := some 4
      valueQueries := [⟨1, ascii ":x"⟩]
      nameQueries := [⟨⟨1, ascii "-7"⟩, -7⟩] }
    let refused := ["--id", "--help"].map ascii
    (complaint settings words = [] ∧ arguments.Fits ∧
        ∃ groups : List WordGroup, words = groups.flatMap WordGroup.words ∧
          arguments.ReadFrom settings groups) ∧
      run (fun _ => none) {} {} refused =
        ⟨2, [(.errors, complaint {} refused)], {}⟩ := by
  intro settings words arguments refused
  constructor
  · have accepted : Arguments.ofWords settings words = .ok arguments := by decide +kernel
    obtain ⟨quiet, fits, -, ⟨groups, grouped⟩, readFrom⟩ :=
      (accepted_safely_or_refused settings words).1 arguments accepted
    exact ⟨quiet, fits rfl, groups, grouped, readFrom groups grouped⟩
  · have fault : Arguments.ofWords {} refused = .error (.invalidOpcode (ascii "--help")) := by
      decide +kernel
    exact ((accepted_safely_or_refused {} refused).2 _ fault).2 _ {} {} rfl

end OpcodeCatalog.CommandLine

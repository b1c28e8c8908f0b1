import OpcodeCatalog.Proofs.AcceptedArguments
import Mathlib.Data.List.Induction

/-!
# Groups of words

The words of a command line are read in groups: an option together with its operand,
which may look like an option itself, or any other word alone.  Arguments that are
accepted are those that the groups give, field by field: the last operand of an option
that may be given once, all operands of one that may be repeated, whether a flag is
raised, and one game at most.
-/

namespace OpcodeCatalog.CommandLine

def Flag.spellings : Flag → List Bytes
  | .help => [ascii "-h", ascii "--help"]
  | .verify => [ascii "--verify"]
  | .trace => [ascii "--trace"]
  | .dump => [ascii "--dump"]

def Parameter.spelling : Parameter → Bytes
  | .directory => ascii "--db-dir"
  | .id => ascii "--id"
  | .name => ascii "--name"
  | .value => ascii "--value"
  | .nameOf => ascii "--name-of"

theorem Flag.head?_of_mem_spellings {flag : Flag} {word : Bytes} (spelled : word ∈ flag.spellings) :
    word.head? = some '-'.toUInt8 := by
  revert word
  cases flag <;> decide

/-- A word raises one flag only. -/
theorem Flag.mem_spellings_iff {flag other : Flag} {word : Bytes} (spelled : word ∈ flag.spellings) :
    word ∈ other.spellings ↔ other = flag := by
  revert word
  cases flag <;> cases other <;> decide

theorem Parameter.head?_spelling (parameter : Parameter) :
    parameter.spelling.head? = some '-'.toUInt8 := by
  cases parameter <;> rfl

instance (word : Bytes) : Decidable (∀ parameter : Parameter, word ≠ parameter.spelling) :=
  decidable_of_iff
    (∀ parameter ∈ [Parameter.directory, .id, .name, .value, .nameOf], word ≠ parameter.spelling)
    ⟨fun other parameter => other parameter (by cases parameter <;> decide),
      fun other parameter _ => other parameter⟩

/-- The words that are read together. -/
inductive WordGroup where
  | option (parameter : Parameter) (operand : Bytes)
  | single (word : Bytes) (plain : ∀ parameter : Parameter, word ≠ parameter.spelling)
  deriving DecidableEq

namespace Word

/-- What is meant by a word that is not taken for an operand. -/
inductive Means : Bytes → Word → Prop where
  | flag {word : Bytes} {flag : Flag} : word ∈ flag.spellings → Means word (.flag flag)
  | parameter (parameter : Parameter) : Means parameter.spelling (.parameter parameter)
  | unknownOption {word : Bytes} :
      word.head? = some '-'.toUInt8 →
      (∀ flag : Flag, word ∉ flag.spellings) →
      (∀ parameter : Parameter, word ≠ parameter.spelling) →
      Means word .unknownOption
  | game {word : Bytes} : word.head? ≠ some '-'.toUInt8 → Means word .game

theorem means_ofArgument (word : Bytes) : Means word (ofArgument word) := by
  unfold ofArgument
  split
  · next help => exact .flag (by simpa [Flag.spellings] using help)
  split
  · next verify => exact .flag (List.mem_singleton.mpr verify)
  split
  · next trace => exact .flag (List.mem_singleton.mpr trace)
  split
  · next dump => exact .flag (List.mem_singleton.mpr dump)
  split
  · next directory => exact directory ▸ .parameter .directory
  split
  · next id => exact id ▸ .parameter .id
  split
  · next name => exact name ▸ .parameter .name
  split
  · next value => exact value ▸ .parameter .value
  split
  · next nameOf => exact nameOf ▸ .parameter .nameOf
  split
  · next opens =>
      apply Means.unknownOption opens
      · intro flag
        cases flag <;> simp_all [Flag.spellings]
      · intro parameter
        cases parameter <;> assumption
  · next opens => exact .game opens

theorem Means.ofArgument_eq {word : Bytes} {meaning : Word} (means : Means word meaning) :
    ofArgument word = meaning := by
  cases means with
  | @flag _ flag spelled =>
      revert word
      cases flag <;> decide
  | parameter parameter => cases parameter <;> decide
  | unknownOption opens noFlag noParameter =>
      have other := means_ofArgument word
      generalize ofArgument word = meaning at other ⊢
      cases other with
      | flag spelled => exact (noFlag _ spelled).elim
      | parameter parameter => exact (noParameter parameter rfl).elim
      | unknownOption => rfl
      | game plain => exact (plain opens).elim
  | game plain =>
      have other := means_ofArgument word
      generalize ofArgument word = meaning at other ⊢
      cases other with
      | flag spelled => exact (plain (Flag.head?_of_mem_spellings spelled)).elim
      | parameter parameter => exact (plain parameter.head?_spelling).elim
      | unknownOption opens => exact (plain opens).elim
      | game => rfl

end Word

namespace WordGroup

def words : WordGroup → List Bytes
  | option parameter operand => [parameter.spelling, operand]
  | single word _ => [word]

/-- The operand that the group has for an option. -/
def operand? (parameter : Parameter) : WordGroup → Option Bytes
  | option own operand => if own = parameter then some operand else none
  | single _ _ => none

/-- The game that the group names. -/
def game? : WordGroup → Option Bytes
  | option _ _ => none
  | single word _ => if word.head? = some '-'.toUInt8 then none else some word

def raises (flag : Flag) : WordGroup → Bool
  | option _ _ => false
  | single word _ => word ∈ flag.spellings

end WordGroup

/-- The query for a name that an operand stands for; its text has to be a number. -/
def NameQuery.ofOperand? (operand : Bytes) : Option NameQuery := do
  let query ← SlotQuery.ofOperand? operand
  let value ← signed32? query.text
  return { query with value }

theorem NameQuery.ofOperand?_eq_some_iff {operand : Bytes} {query : NameQuery} :
    NameQuery.ofOperand? operand = some query ↔
      SlotQuery.ofOperand? operand = some query.toSlotQuery ∧
        signed32? query.text = some query.value := by
  simp only [ofOperand?, Option.bind_eq_bind, Option.bind_eq_some_iff]
  constructor
  · rintro ⟨found, slotted, value, valued, same⟩
    cases same
    exact ⟨slotted, valued⟩
  · intro found
    exact ⟨query.toSlotQuery, found.1, query.value, found.2, rfl⟩

/-- Nothing is wrong with the group by itself. -/
def WordGroup.Sound : WordGroup → Prop
  | option .id operand => ∃ id, unsigned32? operand = some id
  | option .value operand => ∃ query, SlotQuery.ofOperand? operand = some query
  | option .nameOf operand => ∃ query, NameQuery.ofOperand? operand = some query
  | option .directory _ | option .name _ => True
  | single word _ => word.head? = some '-'.toUInt8 → ∃ flag : Flag, word ∈ flag.spellings

/-- All operands of an option. -/
def operands (parameter : Parameter) (groups : List WordGroup) : List Bytes :=
  groups.filterMap (·.operand? parameter)

def games (groups : List WordGroup) : List Bytes :=
  groups.filterMap WordGroup.game?

/-- No game is named behind another one; an empty word names none. -/
def OneGame (groups : List WordGroup) : Prop :=
  ∀ game ∈ (games groups).dropLast, game = []

@[simp]
theorem operands_concat (parameter : Parameter) (groups : List WordGroup) (group : WordGroup) :
    operands parameter (groups ++ [group]) =
      operands parameter groups ++ (group.operand? parameter).toList := by
  unfold operands
  rw [List.filterMap_append]
  cases found : group.operand? parameter <;> simp [found]

@[simp]
theorem games_concat (groups : List WordGroup) (group : WordGroup) :
    games (groups ++ [group]) = games groups ++ group.game?.toList := by
  unfold games
  rw [List.filterMap_append]
  cases found : group.game? <;> simp [found]

/-- A further group may name a game if none was named before it. -/
theorem oneGame_concat_iff {groups : List WordGroup} {group : WordGroup} :
    OneGame (groups ++ [group]) ↔
      OneGame groups ∧ (group.game? ≠ none → (games groups).getLast?.getD [] = []) := by
  unfold OneGame
  rw [games_concat]
  cases group.game? with
  | none => simp
  | some game =>
      rw [Option.toList_some, List.dropLast_concat]
      rcases List.eq_nil_or_concat (games groups) with none | ⟨before, last, named⟩
      · simp [none]
      · simp [named, or_imp, forall_and]

namespace Arguments

/-- What the groups say on top of settings, if nothing is wrong with them. -/
def gathered (settings : Settings) (groups : List WordGroup) : Arguments where
  settings :=
    { settings with
      directory := (operands .directory groups).getLast?.getD settings.directory
      trace := settings.trace || groups.any (·.raises .trace)
      verify := settings.verify || groups.any (·.raises .verify) }
  game := (games groups).getLast?.getD []
  dump := groups.any (·.raises .dump)
  help := groups.any (·.raises .help)
  id := (operands .id groups).getLast?.bind unsigned32?
  name := (operands .name groups).getLast?
  valueQueries := (operands .value groups).filterMap SlotQuery.ofOperand?
  nameQueries := (operands .nameOf groups).filterMap NameQuery.ofOperand?

/-- Reads one group behind the arguments read so far. -/
def follow (arguments : Arguments) : WordGroup → Except UsageFault Arguments
  | .option parameter operand => arguments.set parameter operand
  | .single word _ =>
    match Word.ofArgument word with
    | .flag flag => .ok (arguments.setFlag flag)
    | .game => arguments.setGame word
    | _ => .error (.unknownOption word)

theorem read_group (arguments : Arguments) (group : WordGroup) (rest : List Bytes) :
    arguments.read (group.words ++ rest) =
      arguments.follow group >>= fun next => next.read rest := by
  cases group with
  | option parameter operand =>
      simp only [WordGroup.words, List.cons_append, List.nil_append]
      rw [read, (Word.Means.parameter parameter).ofArgument_eq]
      rfl
  | single word plain =>
      simp only [WordGroup.words, List.cons_append, List.nil_append]
      rw [read, follow]
      have means := Word.means_ofArgument word
      cases meant : Word.ofArgument word with
      | flag flag => rfl
      | game => rfl
      | unknownOption => rfl
      | parameter parameter =>
          rw [meant] at means
          cases means
          exact (plain parameter rfl).elim

/-- Words are read group by group. -/
theorem read_groups (arguments : Arguments) (groups : List WordGroup) (rest : List Bytes) :
    arguments.read (groups.flatMap WordGroup.words ++ rest) =
      groups.foldlM follow arguments >>= fun next => next.read rest := by
  induction groups generalizing arguments with
  | nil => rfl
  | cons group groups induction =>
      rw [List.flatMap_cons, List.append_assoc, read_group, List.foldlM_cons, bind_assoc]
      simp only [induction]

/-- What a group adds to the arguments read so far. -/
inductive Follows (arguments : Arguments) : WordGroup → Arguments → Prop where
  | directory (operand : Bytes) :
      Follows arguments (.option .directory operand)
        { arguments with settings.directory := operand }
  | id {operand : Bytes} {id : UInt32} :
      unsigned32? operand = some id →
      Follows arguments (.option .id operand) { arguments with id := some id }
  | name (operand : Bytes) :
      Follows arguments (.option .name operand) { arguments with name := some operand }
  | value {operand : Bytes} {query : SlotQuery} :
      SlotQuery.ofOperand? operand = some query →
      Follows arguments (.option .value operand)
        { arguments with valueQueries := arguments.valueQueries ++ [query] }
  | nameOf {operand : Bytes} {query : NameQuery} :
      NameQuery.ofOperand? operand = some query →
      Follows arguments (.option .nameOf operand)
        { arguments with nameQueries := arguments.nameQueries ++ [query] }
  | flag {word : Bytes} {flag : Flag} {plain : ∀ parameter : Parameter, word ≠ parameter.spelling} :
      word ∈ flag.spellings →
      Follows arguments (.single word plain) (arguments.setFlag flag)
  | game {word : Bytes} {plain : ∀ parameter : Parameter, word ≠ parameter.spelling} :
      word.head? ≠ some '-'.toUInt8 →
      arguments.game = [] →
      Follows arguments (.single word plain) { arguments with game := word }

theorem slotQuery_eq_ok_iff {operand : Bytes} {query : SlotQuery} :
    slotQuery operand = .ok query ↔ SlotQuery.ofOperand? operand = some query := by
  unfold slotQuery
  cases SlotQuery.ofOperand? operand with
  | none => exact iff_of_false nofun nofun
  | some found => rw [Except.ok.injEq, Option.some.injEq]

theorem set_eq_ok_iff {arguments next : Arguments} {parameter : Parameter} {operand : Bytes} :
    arguments.set parameter operand = .ok next ↔
      Follows arguments (.option parameter operand) next := by
  constructor
  · intro set
    cases parameter with
    | directory =>
        cases set
        exact .directory operand
    | id =>
        simp only [Arguments.set] at set
        split at set
        · next id valued =>
            cases set
            exact .id valued
        · cases set
    | name =>
        cases set
        exact .name operand
    | value =>
        obtain ⟨query, parsed, added⟩ := bind_eq_ok_iff.mp set
        cases added
        exact .value (slotQuery_eq_ok_iff.mp parsed)
    | nameOf =>
        obtain ⟨query, parsed, added⟩ := bind_eq_ok_iff.mp set
        split at added
        · next value valued =>
            cases added
            exact .nameOf
              (NameQuery.ofOperand?_eq_some_iff.mpr ⟨slotQuery_eq_ok_iff.mp parsed, valued⟩)
        · cases added
  · intro follows
    cases follows with
    | directory => rfl
    | id valued => simp only [Arguments.set, valued]
    | name => rfl
    | value parsed => exact bind_eq_ok_iff.mpr ⟨_, slotQuery_eq_ok_iff.mpr parsed, rfl⟩
    | nameOf found =>
        obtain ⟨parsed, valued⟩ := NameQuery.ofOperand?_eq_some_iff.mp found
        refine bind_eq_ok_iff.mpr ⟨_, slotQuery_eq_ok_iff.mpr parsed, ?_⟩
        simp only [valued]
        rfl

theorem follow_eq_ok_iff {arguments next : Arguments} {group : WordGroup} :
    arguments.follow group = .ok next ↔ Follows arguments group next := by
  cases group with
  | option parameter operand => exact set_eq_ok_iff
  | single word plain =>
      have means := Word.means_ofArgument word
      rw [follow]
      constructor
      · intro followed
        cases meant : Word.ofArgument word with
        | flag flag =>
            rw [meant] at followed means
            cases followed
            cases means with
            | flag spelled => exact .flag spelled
        | game =>
            rw [meant] at followed means
            simp only [setGame] at followed
            split at followed
            · next unnamed =>
                cases followed
                cases means with
                | game opens => exact .game opens unnamed
            · cases followed
        | unknownOption | parameter =>
            rw [meant] at followed
            cases followed
      · intro follows
        cases follows with
        | flag spelled => rw [(Word.Means.flag spelled).ofArgument_eq]
        | game opens unnamed =>
            rw [(Word.Means.game opens).ofArgument_eq]
            exact if_pos unnamed

/-- A group can be read if it is sound and names no second game. -/
theorem exists_follows_iff {arguments : Arguments} {group : WordGroup} :
    (∃ next, Follows arguments group next) ↔
      group.Sound ∧ (group.game? ≠ none → arguments.game = []) := by
  constructor
  · rintro ⟨next, follows⟩
    cases follows with
    | directory | name => exact ⟨trivial, fun named => (named rfl).elim⟩
    | id valued => exact ⟨⟨_, valued⟩, fun named => (named rfl).elim⟩
    | value query => exact ⟨⟨_, query⟩, fun named => (named rfl).elim⟩
    | nameOf query => exact ⟨⟨_, query⟩, fun named => (named rfl).elim⟩
    | flag spelled =>
        refine ⟨fun _ => ⟨_, spelled⟩, fun named => (named ?_).elim⟩
        exact if_pos (Flag.head?_of_mem_spellings spelled)
    | game opens unnamed => exact ⟨fun option => (opens option).elim, fun _ => unnamed⟩
  · rintro ⟨sound, named⟩
    cases group with
    | option parameter operand =>
        cases parameter with
        | directory => exact ⟨_, .directory operand⟩
        | name => exact ⟨_, .name operand⟩
        | id =>
            obtain ⟨id, valued⟩ := sound
            exact ⟨_, .id valued⟩
        | value =>
            obtain ⟨query, parsed⟩ := sound
            exact ⟨_, .value parsed⟩
        | nameOf =>
            obtain ⟨query, parsed⟩ := sound
            exact ⟨_, .nameOf parsed⟩
    | single word plain =>
        by_cases opens : word.head? = some '-'.toUInt8
        · obtain ⟨flag, spelled⟩ := sound opens
          exact ⟨_, .flag spelled⟩
        · exact ⟨_, .game opens (named (by simp [WordGroup.game?, opens]))⟩

/-- Reading a group keeps the arguments those that the groups so far give. -/
theorem Follows.eq_gathered {settings : Settings} {groups : List WordGroup} {group : WordGroup}
    {next : Arguments} (follows : Follows (gathered settings groups) group next) :
    next = gathered settings (groups ++ [group]) := by
  cases follows with
  | directory | name =>
      simp [gathered, WordGroup.operand?, WordGroup.game?, WordGroup.raises]
  | id found | value found | nameOf found =>
      simp [gathered, WordGroup.operand?, WordGroup.game?, WordGroup.raises, found]
  | @flag word flag _ spelled =>
      have opens := Flag.head?_of_mem_spellings spelled
      have raised (other : Flag) : word ∈ other.spellings ↔ other = flag :=
        Flag.mem_spellings_iff spelled
      cases flag <;>
        simp [gathered, WordGroup.operand?, WordGroup.game?, WordGroup.raises, setFlag, opens,
          raised]
  | @game word _ plain _ =>
      have unraised (flag : Flag) : word ∉ flag.spellings :=
        fun spelled => plain (Flag.head?_of_mem_spellings spelled)
      simp [gathered, WordGroup.operand?, WordGroup.game?, WordGroup.raises, plain, unraised]

/-- Groups are read to the end if each one is sound and one game is named at most, and then the
arguments are those that they give. -/
theorem foldlM_follow_eq_ok_iff {settings : Settings} {groups : List WordGroup}
    {arguments : Arguments} :
    groups.foldlM follow { settings } = .ok arguments ↔
      (∀ group ∈ groups, group.Sound) ∧ OneGame groups ∧ arguments = gathered settings groups := by
  -- From the end, because the last operand of an option is the one that counts.
  induction groups using List.reverseRecOn generalizing arguments with
  | nil =>
      have blank : gathered settings [] = { settings } := by
        simp [gathered, operands, games]
      rw [blank, List.foldlM_nil]
      constructor
      · intro same
        cases same
        exact ⟨nofun, nofun, rfl⟩
      · exact fun same => same.2.2 ▸ rfl
  | append_singleton groups group induction =>
      simp only [List.foldlM_append, List.foldlM_cons, List.foldlM_nil, bind_pure,
        bind_eq_ok_iff, induction, follow_eq_ok_iff]
      rw [oneGame_concat_iff, List.forall_mem_append, List.forall_mem_singleton]
      constructor
      · rintro ⟨_, ⟨sound, oneGame, rfl⟩, follows⟩
        obtain ⟨soundLast, named⟩ := exists_follows_iff.mp ⟨_, follows⟩
        exact ⟨⟨sound, soundLast⟩, ⟨oneGame, named⟩, follows.eq_gathered⟩
      · rintro ⟨⟨sound, soundLast⟩, ⟨oneGame, named⟩, rfl⟩
        obtain ⟨next, follows⟩ : ∃ next, Follows (gathered settings groups) group next :=
          exists_follows_iff.mpr ⟨soundLast, named⟩
        exact ⟨_, ⟨sound, oneGame, rfl⟩, follows.eq_gathered ▸ follows⟩

/-- What the words of groups are accepted for. -/
theorem ofWords_groups_eq_ok_iff {settings : Settings} {groups : List WordGroup}
    {arguments : Arguments} :
    ofWords settings (groups.flatMap WordGroup.words) = .ok arguments ↔
      ((∀ group ∈ groups, group.Sound) ∧ OneGame groups ∧ arguments = gathered settings groups) ∧
        (arguments.help = true ∨ arguments.Fits) := by
  have read := read_groups { settings } groups []
  rw [List.append_nil] at read
  rw [ofWords_eq_ok_iff, read]
  change groups.foldlM follow { settings } >>= pure = _ ∧ _ ↔ _
  rw [bind_pure, foldlM_follow_eq_ok_iff]

/-- An option that lacks its operand is behind the last group, or there is none. -/
theorem exists_groups : (words : List Bytes) →
    ∃ groups : List WordGroup, words = groups.flatMap WordGroup.words ∨
      ∃ parameter : Parameter, words = groups.flatMap WordGroup.words ++ [parameter.spelling]
  | [] => ⟨[], .inl rfl⟩
  | word :: rest => by
      by_cases spelled : ∃ parameter : Parameter, word = parameter.spelling
      · obtain ⟨parameter, rfl⟩ := spelled
        match rest with
        | [] => exact ⟨[], .inr ⟨parameter, rfl⟩⟩
        | operand :: rest =>
            obtain ⟨groups, rfl | ⟨lacking, rfl⟩⟩ := exists_groups rest
            · exact ⟨.option parameter operand :: groups, .inl rfl⟩
            · exact ⟨.option parameter operand :: groups, .inr ⟨lacking, rfl⟩⟩
      · have plain := not_exists.mp spelled
        obtain ⟨groups, rfl | ⟨lacking, rfl⟩⟩ := exists_groups rest
        · exact ⟨.single word plain :: groups, .inl rfl⟩
        · exact ⟨.single word plain :: groups, .inr ⟨lacking, rfl⟩⟩

/-- Words that are accepted are groups throughout. -/
theorem exists_groups_of_ofWords {settings : Settings} {words : List Bytes} {arguments : Arguments}
    (accepted : ofWords settings words = .ok arguments) :
    ∃ groups : List WordGroup, words = groups.flatMap WordGroup.words := by
  obtain ⟨groups, grouped | ⟨parameter, rfl⟩⟩ := exists_groups words
  · exact ⟨groups, grouped⟩
  · rw [ofWords_eq_ok_iff, read_groups, bind_eq_ok_iff] at accepted
    obtain ⟨⟨between, -, read⟩, -⟩ := accepted
    rw [Arguments.read, (Word.Means.parameter parameter).ofArgument_eq] at read
    cases read

end Arguments

end OpcodeCatalog.CommandLine

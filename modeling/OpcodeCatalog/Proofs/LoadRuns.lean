import OpcodeCatalog.Catalog.Load
import OpcodeCatalog.FileTree
import OpcodeCatalog.Proofs.Messages
import OpcodeCatalog.Proofs.MovedTokens
import OpcodeCatalog.Proofs.RegisteredPaths

/-!
# Runs of loads

Loads that share a registry follow each other in any order: some find their source
and read it, some refuse it, some find none.  Each load answers for its own source
only.  What the loads before it leave to it is the registry, which decides the number
of its file and nothing else, and in which no path ever gets another number.
-/

namespace OpcodeCatalog

/-- The diagnostic with all but the number of its file. -/
def Diagnostic.withoutFile (diagnostic : Diagnostic) : Diagnostic :=
  { diagnostic with location := diagnostic.location.inFile 0 }

/-- What one load is asked for. -/
structure LoadRequest where
  settings : Settings
  game : Bytes

namespace LoadRequest

def path (request : LoadRequest) : Bytes :=
  request.settings.catalogPath request.game

/-- The request for the same catalog with nothing traced and nothing reviewed. -/
def silent (request : LoadRequest) : LoadRequest :=
  { request with settings := { request.settings with trace := false, verify := false } }

end LoadRequest

namespace Catalog

variable {contents? : Bytes → Option Bytes} {request : LoadRequest}
  {settings : Settings} {game : Bytes} {before after last : SourceRegistry}
  {result : Except Diagnostic Catalog}

/-- What loads come to, one after the other, and the registry that they leave behind. -/
def loadAll (contents? : Bytes → Option Bytes) (registry : Option SourceRegistry) :
    List LoadRequest → List (Except Diagnostic Catalog) × Option SourceRegistry
  | [] => ([], registry)
  | request :: later =>
    let loading := load contents? registry request.settings request.game
    let (results, last) := loadAll contents? loading.registry later
    (loading.result :: results, last)

/-- The report that there is no source at a path. -/
def missingSource (path : Bytes) : Diagnostic where
  severity := .error
  message := ascii "game database not found: " ++ path
  code := ascii "B1001"

/-- What a load of a request comes to, and what becomes of the registry at it. -/
structure Loads (contents? : Bytes → Option Bytes) (request : LoadRequest)
    (before : SourceRegistry) (result : Except Diagnostic Catalog) (after : SourceRegistry) :
    Prop where
  /-- Sources are reported missing if they are, and only then. -/
  reported : (∃ diagnostic, result = .error diagnostic ∧ diagnostic.code = ascii "B1001") ↔
    contents? request.path = none
  missing : contents? request.path = none →
    result = .error (missingSource request.path) ∧ after = before
  /-- A source that is there is read, and its path registered. -/
  read : ∀ source, contents? request.path = some source →
    result = ((Source.instructions (after.number request.path) source).map
        (Catalog.mk request.game)).mapError Source.Refusal.diagnostic ∧
      after = before.adding request.path
  /-- All other errors tell of a malformed source, by the number of its path. -/
  malformed : ∀ diagnostic, result = .error diagnostic → diagnostic.code ≠ ascii "B1001" →
    diagnostic.code = ascii "B1002" ∧
      diagnostic.location.file = after.number request.path ∧ after.Knows request.path

/-! ## One load -/

theorem diagnostic_sourceNotFound (path : Bytes) :
    (Finding.sourceNotFound path).diagnostic = missingSource path := by
  have message := Finding.message_sourceNotFound path
  unfold missingSource
  rw [← message]
  rfl

theorem load_of_missing (missing : contents? (settings.catalogPath game) = none)
    (registry : Option SourceRegistry) :
    (load contents? registry settings game).result =
        .error (missingSource (settings.catalogPath game)) ∧
      (load contents? registry settings game).registry = registry := by
  rw [← diagnostic_sourceNotFound]
  constructor <;> simp only [load, missing]

theorem load_of_present {source : Bytes}
    (present : contents? (settings.catalogPath game) = some source)
    (registry : Option SourceRegistry) :
    (load contents? registry settings game).result =
        ofSource game (registerIn registry (settings.catalogPath game)).1 source ∧
      (load contents? registry settings game).registry =
        (registerIn registry (settings.catalogPath game)).2 := by
  constructor <;> simp only [load, present]

theorem registerIn_some (registry : SourceRegistry) (path : Bytes) :
    registerIn (some registry) path = (registry.number path, some (registry.adding path)) := by
  rw [registerIn, SourceRegistry.register_eq]
  rfl

theorem ofSource_eq (game : Bytes) (file : UInt32) (source : Bytes) :
    ofSource game file source =
      ((Source.instructions file source).map (Catalog.mk game)).mapError
        Source.Refusal.diagnostic := by
  unfold ofSource
  cases Source.instructions file source <;> rfl

/-- A refusal is in the file that was read. -/
theorem refusal_file {file : UInt32} {source : Bytes} {refusal : Source.Refusal}
    (refused : Source.instructions file source = .error refusal) :
    refusal.location.file = file := by
  have moved := Source.instructions_inFile file file source
  rw [refused] at moved
  injection moved with same
  rw [same]
  rfl

theorem ofSource_error {game : Bytes} {file : UInt32} {source : Bytes} {diagnostic : Diagnostic}
    (refused : ofSource game file source = .error diagnostic) :
    diagnostic.code = ascii "B1002" ∧ diagnostic.location.file = file := by
  unfold ofSource at refused
  cases read : Source.instructions file source with
  | ok instructions =>
      rw [read] at refused
      cases refused
  | error refusal =>
      rw [read] at refused
      cases refused
      exact ⟨rfl, refusal_file read⟩

theorem loads_of_missing (missing : contents? request.path = none) (registry : SourceRegistry) :
    Loads contents? request registry (.error (missingSource request.path)) registry := by
  constructor
  · exact iff_of_true ⟨_, rfl, rfl⟩ missing
  · exact fun _ => ⟨rfl, rfl⟩
  · intro source present
    cases missing.symm.trans present
  · intro diagnostic error other
    cases error
    exact absurd rfl other

theorem loads_of_present {source : Bytes} (present : contents? request.path = some source)
    (registry : SourceRegistry) :
    Loads contents? request registry
      (ofSource request.game (registry.number request.path) source)
      (registry.adding request.path) := by
  rw [← SourceRegistry.number_adding]
  constructor
  · apply iff_of_false
    · intro reported
      obtain ⟨diagnostic, error, code⟩ := reported
      rw [(ofSource_error error).1] at code
      revert code
      decide
    · rw [present]
      exact Option.some_ne_none source
  · intro missing
    cases present.symm.trans missing
  · intro other found
    cases present.symm.trans found
    exact ⟨ofSource_eq _ _ _, rfl⟩
  · intro diagnostic error _
    obtain ⟨code, file⟩ := ofSource_error error
    exact ⟨code, file, SourceRegistry.knows_adding _ _⟩

theorem loads_load (contents? : Bytes → Option Bytes) (request : LoadRequest)
    (registry : SourceRegistry) :
    ∃ after, (load contents? (some registry) request.settings request.game).registry = some after ∧
      Loads contents? request registry
        (load contents? (some registry) request.settings request.game).result after := by
  cases contents : contents? request.path with
  | none =>
      obtain ⟨result, same⟩ := load_of_missing contents (some registry)
      refine ⟨registry, same, ?_⟩
      rw [result]
      exact loads_of_missing contents registry
  | some source =>
      obtain ⟨result, registered⟩ := load_of_present contents (some registry)
      rw [registerIn_some] at result registered
      refine ⟨registry.adding request.path, registered, ?_⟩
      rw [result]
      exact loads_of_present contents registry

theorem Loads.extends (loads : Loads contents? request before result after) :
    after.Extends before := by
  cases contents : contents? request.path with
  | none =>
      rw [(loads.missing contents).2]
      exact .refl before
  | some source =>
      rw [(loads.read source contents).2]
      exact SourceRegistry.extends_adding _ _

/-- A malformed source is told by a number that leads to its path from then on. -/
theorem Loads.number_leads (loads : Loads contents? request before result after)
    (extension : last.Extends after) {diagnostic : Diagnostic}
    (error : result = .error diagnostic) (code : diagnostic.code = ascii "B1002")
    (counts : after.place request.path + 1 < UInt32.size) :
    diagnostic.location.file ≠ 0 ∧
      last.path diagnostic.location.file = Path.normalForm request.path := by
  have other : diagnostic.code ≠ ascii "B1001" := by
    rw [code]
    decide
  obtain ⟨_, file, known⟩ := loads.malformed diagnostic error other
  rw [← extension.place_eq known] at counts
  rw [file, ← extension.number_eq known]
  exact SourceRegistry.path_number (extension.knows known) counts

/-! ## Runs -/

theorem loadAll_cons (registry : Option SourceRegistry) (request : LoadRequest)
    (later : List LoadRequest) :
    loadAll contents? registry (request :: later) =
      ((load contents? registry request.settings request.game).result ::
          (loadAll contents?
            (load contents? registry request.settings request.game).registry later).1,
        (loadAll contents?
          (load contents? registry request.settings request.game).registry later).2) := rfl

theorem loadAll_append (registry : Option SourceRegistry) (earlier later : List LoadRequest) :
    loadAll contents? registry (earlier ++ later) =
      ((loadAll contents? registry earlier).1 ++
          (loadAll contents? (loadAll contents? registry earlier).2 later).1,
        (loadAll contents? (loadAll contents? registry earlier).2 later).2) := by
  induction earlier generalizing registry with
  | nil => rfl
  | cons request earlier induction =>
      rw [List.cons_append, loadAll_cons, loadAll_cons, induction]
      rfl

theorem length_loadAll (registry : Option SourceRegistry) (requests : List LoadRequest) :
    (loadAll contents? registry requests).1.length = requests.length := by
  induction requests generalizing registry with
  | nil => rfl
  | cons request later induction =>
      rw [loadAll_cons, List.length_cons, List.length_cons, induction]

/-- A run keeps the registry and all numbers in it. -/
theorem loadAll_extends (contents? : Bytes → Option Bytes) (registry : SourceRegistry)
    (requests : List LoadRequest) :
    ∃ last, (loadAll contents? (some registry) requests).2 = some last ∧
      last.Extends registry := by
  induction requests generalizing registry with
  | nil => exact ⟨registry, rfl, .refl registry⟩
  | cons request later induction =>
      obtain ⟨after, loaded, loads⟩ := loads_load contents? request registry
      obtain ⟨last, run, extension⟩ := induction after
      refine ⟨last, ?_, extension.trans loads.extends⟩
      rw [loadAll_cons, loaded]
      exact run

/-! ## What a load does not depend on -/

theorem ofSource_withoutFile (game : Bytes) (file other : UInt32) (source : Bytes) :
    (ofSource game file source).mapError Diagnostic.withoutFile =
      (ofSource game other source).mapError Diagnostic.withoutFile := by
  unfold ofSource
  rw [Source.instructions_inFile file other]
  cases Source.instructions file source <;> rfl

theorem load_withoutFile (registry other : Option SourceRegistry) (settings : Settings)
    (game : Bytes) :
    (load contents? registry settings game).result.mapError Diagnostic.withoutFile =
      (load contents? other settings game).result.mapError Diagnostic.withoutFile := by
  cases contents : contents? (settings.catalogPath game) with
  | none => rw [(load_of_missing contents registry).1, (load_of_missing contents other).1]
  | some source =>
      rw [(load_of_present contents registry).1, (load_of_present contents other).1]
      exact ofSource_withoutFile _ _ _ _

theorem loadAll_withoutFile (registry other : Option SourceRegistry)
    (requests : List LoadRequest) :
    (loadAll contents? registry requests).1.map (Except.mapError Diagnostic.withoutFile) =
      (loadAll contents? other requests).1.map (Except.mapError Diagnostic.withoutFile) := by
  induction requests generalizing registry other with
  | nil => rfl
  | cons request later induction =>
      rw [loadAll_cons, loadAll_cons, List.map_cons, List.map_cons,
        load_withoutFile registry other,
        induction _ (load contents? other request.settings request.game).registry]

/-- What is traced and reviewed has no say in what a load comes to. -/
theorem load_of_samePath {other : Settings}
    (samePath : other.catalogPath game = settings.catalogPath game)
    (registry : Option SourceRegistry) :
    (load contents? registry other game).result = (load contents? registry settings game).result ∧
      (load contents? registry other game).registry =
        (load contents? registry settings game).registry := by
  simp only [load, samePath]
  cases contents? (settings.catalogPath game) with
  | none => exact ⟨rfl, rfl⟩
  | some source => exact ⟨rfl, rfl⟩

theorem loadAll_silent (registry : Option SourceRegistry) (requests : List LoadRequest) :
    loadAll contents? registry (requests.map LoadRequest.silent) =
      loadAll contents? registry requests := by
  induction requests generalizing registry with
  | nil => rfl
  | cons request later induction =>
      have samePath : request.silent.settings.catalogPath request.silent.game =
        request.settings.catalogPath request.silent.game := rfl
      obtain ⟨result, registered⟩ := load_of_samePath samePath registry
      rw [List.map_cons, loadAll_cons, loadAll_cons, result, registered, induction]
      rfl

/-- Whatever loads came before it, a load answers for the source at its own path and adds at
most that path to the registry.  If it says that the source is malformed, the number in its
diagnostic leads to the path at once and after all later loads, as long as numbers of 32 bits
suffice.  What is traced or reviewed, and whether there is a registry at all, shows in nothing
but that number. -/
theorem loads_share_registry (contents? : Bytes → Option Bytes) :
    (∀ registry earlier request, ∃ before result after,
      (loadAll contents? (some registry) earlier).2 = some before ∧
      (loadAll contents? (some registry) (earlier ++ [request])).2 = some after ∧
      Loads contents? request before result after ∧
      ∀ later, ∃ results last,
        loadAll contents? (some registry) (earlier ++ request :: later) = (results, some last) ∧
        results[earlier.length]? = some result ∧
        ∀ diagnostic, result = .error diagnostic → diagnostic.code = ascii "B1002" →
          after.place request.path + 1 < UInt32.size →
            diagnostic.location.file ≠ 0 ∧
            after.path diagnostic.location.file = Path.normalForm request.path ∧
            last.path diagnostic.location.file = Path.normalForm request.path) ∧
      ∀ registry other requests others,
        requests.map LoadRequest.silent = others.map LoadRequest.silent →
          loadAll contents? registry requests = loadAll contents? registry others ∧
          (loadAll contents? registry requests).1.map (Except.mapError Diagnostic.withoutFile) =
            (loadAll contents? other others).1.map (Except.mapError Diagnostic.withoutFile) := by
  constructor
  · intro registry earlier request
    obtain ⟨before, run, _⟩ := loadAll_extends contents? registry earlier
    obtain ⟨after, loaded, loads⟩ := loads_load contents? request before
    have behind : ∀ later, loadAll contents? (some registry) (earlier ++ request :: later) =
        ((loadAll contents? (some registry) earlier).1 ++
            (load contents? (some before) request.settings request.game).result ::
              (loadAll contents? (some after) later).1,
          (loadAll contents? (some after) later).2) := by
      intro later
      rw [loadAll_append, run, loadAll_cons, loaded]
    refine ⟨before, _, after, run, ?_, loads, ?_⟩
    · rw [behind []]
      rfl
    · intro later
      obtain ⟨last, rest, extension⟩ := loadAll_extends contents? after later
      refine ⟨_, last, (behind later).trans (by rw [rest]), ?_, ?_⟩
      · have place := @length_loadAll contents? (some registry) earlier
        rw [List.getElem?_append_right (Nat.le_of_eq place), place, Nat.sub_self]
        rfl
      · intro diagnostic error code counts
        obtain ⟨nonzero, path⟩ := loads.number_leads (.refl after) error code counts
        exact ⟨nonzero, path, (loads.number_leads extension error code counts).2⟩
  · intro registry other requests others same
    have results : loadAll contents? registry requests = loadAll contents? registry others := by
      rw [← loadAll_silent, same, loadAll_silent]
    rw [results]
    exact ⟨rfl, loadAll_withoutFile _ _ _⟩

/-- One source is missing, one is read under two spellings of its path, and one is malformed. -/
theorem loads_share_registry_of_malformed :
    let tree := FileTree.addFile
      (FileTree.addFile {} (ascii "db/good.ron") (ascii "GameDB(functions:[])"))
      (ascii "db/bad.ron") (ascii "(\n,)")
    let request (directory game : String) : LoadRequest :=
      ⟨{ directory := ascii directory }, ascii game⟩
    let earlier := [request "db" "none", request "db" "good"]
    let later := [request "db/../db" "good"]
    let refused : Diagnostic :=
      ⟨.error, ascii "malformed game database: expected field name, found ','", ⟨2, 2, 1⟩,
        ascii "B1002"⟩
    ∃ results last,
      loadAll tree.contents? (some {}) (earlier ++ request "db/." "bad" :: later) =
        (results, some last) ∧
      results[earlier.length]? = some (.error refused) ∧
      last.path refused.location.file = ascii "db/bad.ron" := by
  intro tree request earlier later refused
  let bad := request "db/." "bad"
  obtain ⟨_, result, after, _, loaded, _, rest⟩ :=
    (loads_share_registry tree.contents?).1 {} earlier bad
  obtain ⟨results, last, run, third, leads⟩ := rest later
  have error : result = .error refused := by
    let error? : Except Diagnostic Catalog → Option Diagnostic
      | .ok _ => none
      | .error diagnostic => some diagnostic
    have told : ((loadAll tree.contents? (some {})
        (earlier ++ bad :: later)).1[earlier.length]?.bind error?) = some refused := by
      decide +kernel
    rw [run, third] at told
    cases result with
    | ok catalog => cases told
    | error diagnostic => exact congrArg Except.error (Option.some.inj told)
  have place : after.place bad.path = 1 := by
    have second : (loadAll tree.contents? (some {}) (earlier ++ [bad])).2.map
        (·.place bad.path) = some 1 := by
      decide +kernel
    rw [loaded] at second
    exact Option.some.inj second
  have counts : after.place bad.path + 1 < UInt32.size := by
    rw [place]
    decide
  obtain ⟨_, _, path⟩ := leads refused error rfl counts
  have normal : Path.normalForm bad.path = ascii "db/bad.ron" := by decide +kernel
  exact ⟨results, last, run, third.trans (congrArg some error), path.trans normal⟩

end Catalog

end OpcodeCatalog

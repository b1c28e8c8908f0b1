import OpcodeCatalog.Catalog.Review
import OpcodeCatalog.Settings
import OpcodeCatalog.Source.Document
import OpcodeCatalog.Trace

/-!
# Loading catalogs

The catalog of a game is read from the file that the settings lead to.  Its path
is registered once the file is known to be there, so that refusals can name it.
-/

namespace OpcodeCatalog

namespace Catalog

/-- The catalog of a game that a source declares. -/
def ofSource (game : Bytes) (file : UInt32) (source : Bytes) : Except Diagnostic Catalog :=
  match Source.instructions file source with
  | .ok instructions => .ok ⟨game, instructions⟩
  | .error refusal => .error refusal.diagnostic

/-- What a load leads to, with the registry and the trace it leaves behind. -/
structure Loading where
  result : Except Diagnostic Catalog
  registry : Option SourceRegistry
  trace : List TraceLine

/-- What the trace tells of a review. -/
def reviewTrace (catalog : Catalog) : List TraceLine :=
  let findings := catalog.review
  findings.map (fun finding => ⟨ascii "verify", finding.diagnostic.message⟩) ++
    [⟨ascii "verify", decimal findings.length ++ ascii " warnings"⟩]

/-- What the trace tells of a source that was read. -/
def readTrace (settings : Settings) (result : Except Diagnostic Catalog) : List TraceLine :=
  match result with
  | .error diagnostic => [⟨ascii "load", ascii "failed: " ++ diagnostic.message⟩]
  | .ok catalog =>
    ⟨ascii "load", ascii "parsed " ++ decimal catalog.size ++ ascii " records"⟩ ::
      if settings.verify then catalog.reviewTrace else []

/-- Registers a path where there is a registry; without one its number is zero. -/
def registerIn (registry : Option SourceRegistry) (path : Bytes) :
    UInt32 × Option SourceRegistry :=
  match registry with
  | some registry => (registry.register path).map id some
  | none => (0, none)

/-- Loads the catalog of a game, where `contents?` gives the contents of the files
that can be read. -/
def load (contents? : Bytes → Option Bytes) (registry : Option SourceRegistry)
    (settings : Settings) (game : Bytes) : Loading :=
  let path := settings.catalogPath game
  let resolved : TraceLine := ⟨ascii "load", ascii "resolved " ++ path⟩
  match contents? path with
  | none => ⟨.error (Finding.sourceNotFound path).diagnostic, registry, [resolved]⟩
  | some source =>
    let (file, registry) := registerIn registry path
    let result := ofSource game file source
    ⟨result, registry, resolved :: readTrace settings result⟩

end Catalog

end OpcodeCatalog

import OpcodeCatalog.Path

/-!
# Source registry

Catalog sources are numbered from one in the order of their first registration.
Paths are kept in normal form, so all spellings of a path share its number.
-/

namespace OpcodeCatalog

structure SourceRegistry where
  /-- The registered paths; the first one has number one. -/
  paths : List Bytes := []

namespace SourceRegistry

/-- The number of a path, which is registered unless it is already. -/
def register (registry : SourceRegistry) (path : Bytes) : UInt32 × SourceRegistry :=
  let normal := Path.normalForm path
  match registry.paths.idxOf? normal with
  | some index => ((index + 1).toUInt32, registry)
  | none => ((registry.paths.length + 1).toUInt32, ⟨registry.paths ++ [normal]⟩)

/-- The path with a number, empty if there is none. -/
def path (registry : SourceRegistry) (number : UInt32) : Bytes :=
  if number = 0 then [] else registry.paths.getD (number.toNat - 1) []

end SourceRegistry

end OpcodeCatalog

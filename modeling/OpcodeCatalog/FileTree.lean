import Std.Data.ExtTreeMap
import OpcodeCatalog.Path

/-!
# File trees

A file tree says what the paths below a directory lead to, as a file system
without links would.  Unlike a normal form, following a path steps through each
of its components, so all but the last have to be directories that are there.
Several paths may lead to one file, which holds what was last written to it.
-/

namespace OpcodeCatalog

/-- Where something is in a tree: the names on the way to it from the root. -/
abbrev TreePlace := List Bytes

/-- What stands at a place. -/
inductive FileEntry where
  | directory
  | file (contents : Bytes)
  deriving DecidableEq

structure FileTree where
  /-- The directory in which paths start; those that it is in are there as well. -/
  current : TreePlace := []
  entries : Std.ExtTreeMap TreePlace FileEntry := ∅

namespace FileTree

def isDirectory (tree : FileTree) (place : TreePlace) : Bool :=
  place.isPrefixOf tree.current || tree.entries[place]? == some .directory

/-- The longest name that a directory can hold. -/
def maxNameLength : Nat := 255

/-- The longest path that can be followed. -/
def maxPathLength : Nat := 4095

/-- The path as a file system takes it: it ends at its first zero byte. -/
def pathText (path : Bytes) : Bytes :=
  path.takeWhile (· ≠ 0)

/-- The names that a path leads through; rooted paths lead out of the tree. -/
def names? (path : Bytes) : Option (List Bytes) :=
  let path := pathText path
  if path = [] ∨ Path.isRooted path ∨ path.length > maxPathLength then none
  else some (Path.components path)

/-- Where a name leads from a directory, whether there is anything or not. -/
def step (tree : FileTree) (place : TreePlace) (name : Bytes) : Option TreePlace :=
  if !tree.isDirectory place || name.length > maxNameLength then none
  else if name = Path.here then some place
  else if name = Path.parent then some place.dropLast
  else some (place ++ [name])

/-- Steps to a directory, which is made unless it is there. -/
def makeStep (state : FileTree × TreePlace) (name : Bytes) : Option (FileTree × TreePlace) := do
  let (tree, place) := state
  let next ← tree.step place name
  if tree.isDirectory next then return (tree, next)
  else if next ∈ tree.entries then none
  else return ({ tree with entries := tree.entries.insert next .directory }, next)

/-- Steps through names to a directory and makes those that are not there. -/
def makeDirectories (tree : FileTree) (names : List Bytes) : Option (FileTree × TreePlace) :=
  names.foldlM makeStep (tree, tree.current)

/-- Makes all directories on a path; nothing changes where a file stands in the way. -/
def addDirectory (tree : FileTree) (path : Bytes) : FileTree :=
  match (names? path).bind tree.makeDirectories with
  | some (tree, _) => tree
  | none => tree

/-- Writes to the place that a name leads to, unless a directory is there. -/
def write (tree : FileTree) (place : TreePlace) (name contents : Bytes) : FileTree :=
  match tree.step place name with
  | some place =>
    if tree.isDirectory place then tree
    else { tree with entries := tree.entries.insert place (.file contents) }
  | none => tree

/-- Writes a file behind the directories on its path, which are made first.  A
path that ends in a slash names a directory, so nothing is written. -/
def addFile (tree : FileTree) (path contents : Bytes) : FileTree :=
  if Path.endsInSlash (pathText path) then tree.addDirectory path
  else
    let names := (names? path).getD []
    match names.getLast?, tree.makeDirectories names.dropLast with
    | some name, some (tree, place) => tree.write place name contents
    | _, _ => tree

/-- The contents of the regular file that a path leads to. -/
def contents? (tree : FileTree) (path : Bytes) : Option Bytes := do
  if Path.endsInSlash (pathText path) then none
  else
    let place ← (← names? path).foldlM tree.step tree.current
    match tree.entries[place]? with
    | some (.file contents) => some contents
    | _ => none

end FileTree

end OpcodeCatalog

import OpcodeCatalog.Bytes

/-!
# Paths

A path is a text of components between slashes.  The lexical normal form drops
empty components and `.`, lets `..` cancel the component before it, and never
asks a file system, so two spellings of one path have one normal form.
-/

namespace OpcodeCatalog.Path

def here : Bytes := ascii "."

def parent : Bytes := ascii ".."

def isRooted (path : Bytes) : Bool :=
  path.head? == some Ascii.slash

def endsInSlash (path : Bytes) : Bool :=
  path.getLast? == some Ascii.slash

/-- The components of a path, without the empty ones. -/
def components (path : Bytes) : List Bytes :=
  (path.splitOn Ascii.slash).filter (· ≠ [])

/-- Adds a component to those kept so far, which stand last one first.  There is
nothing above the root, and nothing is known of what is above `..`. -/
def addComponent (rooted : Bool) (kept : List Bytes) (component : Bytes) : List Bytes :=
  if component = here then kept
  else if component = parent then
    match kept with
    | [] => if rooted then [] else [parent]
    | last :: before => if last = parent then parent :: kept else before
  else component :: kept

/-- The text of a path from its components, last one first. -/
def ofComponents (rooted : Bool) (kept : List Bytes) (trailingSlash : Bool) : Bytes :=
  (if rooted then [Ascii.slash] else []) ++ [Ascii.slash].intercalate kept.reverse ++
    (if trailingSlash then [Ascii.slash] else [])

/-- Whether a path can only name a directory: it ends in a slash, in `.` or in `..`. -/
def namesDirectory (path : Bytes) : Bool :=
  endsInSlash path ||
    match (components path).getLast? with
    | some last => last == here || last == parent
    | none => false

/-- A slash at the end tells that the path names a directory, which `..` tells by itself. -/
def normalForm (path : Bytes) : Bytes :=
  if path = [] then []
  else
    let rooted := isRooted path
    match (components path).foldl (addComponent rooted) [] with
    | [] => if rooted then [Ascii.slash] else here
    | last :: before =>
      ofComponents rooted (last :: before) (last ≠ parent && namesDirectory path)

/-- A rooted name stands for itself, whatever directory it is looked for in. -/
def join (directory name : Bytes) : Bytes :=
  if isRooted name || directory.isEmpty then name
  else if endsInSlash directory then directory ++ name
  else directory ++ [Ascii.slash] ++ name

end OpcodeCatalog.Path

import TreeTypes.FileAccess

/-!
# A file system as a value

A file tree lists files with their contents and directories, each by the
components of its path from the current directory. It answers as the real file
system does: a path leads through directories only, `..` leads back, a file
that is not there can be created in a directory that is. Of what lies above
the current directory it is only known that these are directories.

## Main definitions

* `FileTree`, `FileTree.find?`: the tree and what stands at a place.
* `FileTree.access`: the tree as a file system.
-/

namespace TreeTypes

/-- What stands at a place. -/
inductive FileNode
  | directory
  | file (bytes : List UInt8)
  deriving DecidableEq

/-- A file system: what stands at which place below the current directory. -/
structure FileTree where
  entries : List (List Text × FileNode) := []

namespace FileTree

/-- The place is a proper beginning of a listed one, so that a directory stands there. -/
def leadsOn (tree : FileTree) (place : List Text) : Bool :=
  tree.entries.any fun entry => place.isPrefixOf entry.1 && place.length < entry.1.length

/-- The current directory, or one above it. -/
def isUpward (place : List Text) : Bool := place.all (· = ("..": Text))

/-- What stands at a place; the current directory and those above it are always there. -/
def find? (tree : FileTree) (place : List Text) : Option FileNode :=
  if isUpward place then some .directory
  else
    match tree.entries.lookup place with
    | some node => some node
    | none => if tree.leadsOn place then some .directory else none

/-- Puts a file at a place, over what stood there. -/
def put (tree : FileTree) (place : List Text) (bytes : List UInt8) : FileTree :=
  ⟨(place, .file bytes) :: tree.entries.filter (·.1 ≠ place)⟩

/--
Follows components from a directory. `..` takes back a component, if there is
one to take back. The last component need not be there: the answer is the
place, if its directory is.
-/
def follow (tree : FileTree) (place : List Text) : List Text → Except FileFault (List Text)
  | [] => .ok place
  | part :: rest =>
    match tree.find? place with
    | none => .error .missing
    | some (.file _) => .error .notDirectory
    | some .directory =>
      follow tree (if part = ".." ∧ !isUpward place then place.dropLast else place ++ [part]) rest

/-- The place that a path means. Of an absolute path only the root itself is there. -/
def place (tree : FileTree) (path : FilePath) : Except FileFault (List Text) :=
  if path.root ≠ [] ∧ path.parts ≠ [] then .error .missing else tree.follow [] path.parts

/-- Reads the file that a path means. -/
def read (tree : FileTree) (path : FilePath) : Except FileFault (List UInt8) :=
  match tree.place path with
  | .error fault => .error fault
  | .ok place =>
    match tree.find? place with
    | none => .error .missing
    | some .directory => .error .isDirectory
    | some (.file bytes) => .ok bytes

/-- Writes the file that a path means, creating it if it is not there. -/
def write (tree : FileTree) (path : FilePath) (bytes : List UInt8) : Except FileFault FileTree :=
  match tree.place path with
  | .error fault => .error fault
  | .ok place =>
    match tree.find? place with
    | some .directory => .error .isDirectory
    | _ => .ok (tree.put place bytes)

/-- The tree as a file system. -/
def access : FileAccess (StateM FileTree) where
  read path := fun tree => (tree.read path, tree)
  create path := fun tree =>
    match tree.write path [] with
    | .ok tree => (.ok (), tree)
    | .error fault => (.error fault, tree)
  fill path bytes := fun tree =>
    match tree.write path bytes with
    | .ok tree => (.ok (), tree)
    | .error fault => (.error fault, tree)

end FileTree

end TreeTypes

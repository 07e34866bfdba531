import TreeTypes.FilePath
import TreeTypes.Text.Quoted
import TreeTypes.Text.Utf8

/-!
# Access to files

The program reads at most two files and writes at most one. What it needs of a
file system is the record `FileAccess`, over any monad: the real one serves
the command line, and a pure one, `FileTree`, serves everything that is said
about the program. Both run the same code.

## Main definitions

* `FileFault`: why a file cannot be read or written, with its wording.
* `FileAccess`: reading a file, creating an empty one, filling it.
* `FileAccess.readText`: a file as text.
-/

namespace TreeTypes

/-- Why a file cannot be read or written. -/
inductive FileFault
  | missing
  | isDirectory
  | notDirectory
  /-- Another refusal of the system, by its number and words. -/
  | refused (number : Nat) (words : Text)
  /-- The bytes are not UTF-8. -/
  | undecodable (fault : Utf8.Fault)
  deriving DecidableEq

/-- A refusal of the system about a path. -/
def FileFault.systemText (number : Nat) (words : Text) (path : FilePath) : Text :=
  Text.concat ["[Errno ", Text.numeral number, "] ", words, ": ", path.text.quoted]

/-- The description of a fault of the file at a path. -/
def FileFault.text (path : FilePath) : FileFault → Text
  | missing => systemText 2 "No such file or directory" path
  | isDirectory => systemText 21 "Is a directory" path
  | notDirectory => systemText 20 "Not a directory" path
  | refused number words => systemText number words path
  | undecodable fault => fault.text

/--
What the program needs of a file system. Writing takes two steps, since a file
is created, or emptied, before it is known what can be put into it.
-/
structure FileAccess (m : Type → Type) where
  read : FilePath → m (Except FileFault (List UInt8))
  create : FilePath → m (Except FileFault Unit)
  fill : FilePath → List UInt8 → m (Except FileFault Unit)

/-- The text of a file, with its line ends unified. -/
def FileAccess.readText {m : Type → Type} [Monad m] (files : FileAccess m) (path : FilePath) :
    m (Except FileFault Text) := do
  match ← files.read path with
  | .error fault => return .error fault
  | .ok bytes =>
    match Utf8.decode bytes with
    | .error fault => return .error (.undecodable fault)
    | .ok text => return .ok text.unifyLineEnds

end TreeTypes

import TreeTypes.Text.Basic

/-!
# File paths

Messages name the file they are about, in one normal form: repeated slashes
are one, components `.` are dropped, and so is a slash at the end. The
component `..` stays, since what it means depends on the file system. Two
slashes at the beginning, and not three or more, are a root of their own.

A path with no components and no root is the current directory, written `.`.
-/

namespace TreeTypes

/-- A path in normal form: its root and its components. -/
structure FilePath where
  /-- The slashes at the beginning: none, one or two. -/
  root : Text
  /-- The components, none of them empty or `.`. -/
  parts : List Text
  deriving DecidableEq

namespace FilePath

/-- The pieces of a text between slashes. -/
def pieces : Text → List Text
  | [] => [[]]
  | p :: rest =>
    if p = .char '/' then [] :: pieces rest
    else
      match pieces rest with
      | [] => [[p]]
      | piece :: more => (p :: piece) :: more

/-- The root that a text begins with. -/
def rootOf (text : Text) : Text :=
  match (text.takeWhile (· = CodePoint.char '/')).length with
  | 0 => ""
  | 2 => "//"
  | _ => "/"

/-- The normal form of a path. -/
def ofText (text : Text) : FilePath :=
  ⟨rootOf text, (pieces text).filter fun piece => piece ≠ [] ∧ piece ≠ ("." : Text)⟩

/-- The text of a path. -/
def text (path : FilePath) : Text :=
  match path.root, path.parts with
  | [], [] => "."
  | root, parts => root ++ Text.join "/" parts

end FilePath

end TreeTypes

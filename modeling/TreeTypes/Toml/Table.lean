import TreeTypes.Datum.Basic
import TreeTypes.Toml.Fault

/-!
# Growing a TOML document

A TOML document fills one tree of tables, statement by statement. What a
statement may do depends on how the tables before it came about, and three
facts are kept for that:

* **declared** paths were opened by a table header (or stand on the path of a
  dotted key of an earlier table) and may not be opened again;
* **frozen** paths hold an inline table or an array value; nothing below them
  may be touched any more;
* **pending** paths stand on the path of a dotted key of the current table.
  They become declared when the next header is read.

A path that leads through an array of tables means its last table. A key has at
least one part; its last part names the member, the parts before it the table.

## Main definitions

* `Toml.updateTable`: change the table at a path, creating what is missing.
* `Toml.Builder`: the tree and the three facts.
* `Builder.openTable`, `Builder.appendTable`, `Builder.assign`: the statements.
-/

namespace TreeTypes.Toml

/-- The members of a table. -/
abbrev Table := List (Text × Datum)

/--
Changes the table at a path by `change`, creating empty tables on the way.
`throughArrays` tells whether a path may lead through the last table of an
array. Fails where something other than a table stands on the way, and where
`change` does.
-/
def updateTable (throughArrays : Bool) (change : Table → Except Reason Table) :
    KeyPath → Table → Except Reason Table
  | [], table => change table
  | key :: path, table =>
    match Datum.lookup key table with
    | none =>
      (updateTable throughArrays change path []).map fun inner =>
        Datum.insert key (.object inner) table
    | some (.object inner) =>
      (updateTable throughArrays change path inner).map fun inner =>
        Datum.insert key (.object inner) table
    | some (.array items) =>
      match throughArrays, items.getLast? with
      | true, some (.object inner) =>
        (updateTable throughArrays change path inner).map fun inner =>
          Datum.insert key (.array (items.dropLast ++ [.object inner])) table
      | _, _ => .error .overwriting
    | some _ => .error .overwriting

/-- Adds a member; a key that is there already is a fault for the given reason. -/
def addMember (taken : Reason) (key : Text) (value : Datum) (table : Table) :
    Except Reason Table :=
  match Datum.lookup key table with
  | some _ => .error taken
  | none => .ok (Datum.insert key value table)

/-- A path at or below one of the given paths. -/
def coveredBy (paths : List KeyPath) (path : KeyPath) : Bool := paths.any (·.isPrefixOf path)

/-- Inline tables and arrays are complete as written. -/
def isComposite : Datum → Bool
  | .array _ => true
  | .object _ => true
  | _ => false

/-- A document under construction, and the path of the table that assignments go to. -/
structure Builder where
  root : Table := []
  current : KeyPath := []
  declared : List KeyPath := []
  frozen : List KeyPath := []
  pending : List KeyPath := []

namespace Builder

/-- Makes the pending paths declared, as a header does. -/
def settle (b : Builder) : Builder :=
  { b with declared := b.pending ++ b.declared, pending := [] }

/-- The header of a table. -/
def openTable (b : Builder) (path : KeyPath) : Except Reason Builder :=
  let b := b.settle
  if b.declared.contains path || coveredBy b.frozen path then .error (.declaredTwice path)
  else
    (updateTable true .ok path b.root).map fun root =>
      { b with root, current := path, declared := path :: b.declared }

/-- Appends an empty table to the array of tables under a key. -/
def appendMember (key : Text) (table : Table) : Except Reason Table :=
  match Datum.lookup key table with
  | none => .ok (Datum.insert key (.array [.object []]) table)
  | some (.array items) => .ok (Datum.insert key (.array (items ++ [.object []])) table)
  | some _ => .error .overwriting

/--
The header of a table in an array of tables. What was known about paths below
belonged to the table before.
-/
def appendTable (b : Builder) (path : KeyPath) : Except Reason Builder :=
  let b := b.settle
  if coveredBy b.frozen path then .error (.immutable path)
  else
    (updateTable true (appendMember (path.getLastD [])) path.dropLast b.root).map fun root =>
      { b with
        root, current := path
        declared := path :: b.declared.filter (!path.isPrefixOf ·)
        frozen := b.frozen.filter (!path.isPrefixOf ·) }

/-- The proper, non-empty beginnings of a path. -/
def beginnings (path : KeyPath) : List KeyPath :=
  (List.range (path.length - 1)).map fun i => path.take (i + 1)

/-- The assignment of a value to a key of the current table; the key may be dotted. -/
def assign (b : Builder) (key : KeyPath) (value : Datum) : Except Reason Builder :=
  let opened := (beginnings key).map (b.current ++ ·)
  let parent := b.current ++ key.dropLast
  match opened.find? b.declared.contains with
  | some path => .error (.redefinition path)
  | none =>
    if coveredBy b.frozen parent then .error (.immutable parent)
    else
      let change := addMember .overwriting (key.getLastD []) value
      (updateTable true change parent b.root).map fun root =>
        { b with
          root
          pending := opened ++ b.pending
          frozen := if isComposite value then (b.current ++ key) :: b.frozen else b.frozen }

end Builder

end TreeTypes.Toml

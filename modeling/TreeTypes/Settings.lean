import TreeTypes.Datum.Basic

/-!
# Settings

Four settings govern how a grammar is read and how its types are written. They
come as a decoded table with two groups; every group and every setting may be
missing and then has its default.

A table that holds anything else is refused. Of several faults one is
reported: unknown groups come first, then the group about the grammar, then
the one about the output. In a group it is that it is no table, then its
unknown keys, then its first unsuitable value. Unknown names are reported all
together and in order, so that the report does not depend on the order in
which they were written.

## Main definitions

* `Settings`, with the defaults in the structure.
* `Settings.Fault`: why a table is refused.
* `Settings.ofTable`: table to settings.
-/

namespace TreeTypes

/-- How a grammar is read and how its types are written. -/
structure Settings where
  /-- Unwrap precedence instead of refusing it. -/
  stripPrecedence : Bool := false
  /-- The type of terminals and of the empty production. -/
  primitiveType : Text := "string"
  /-- The type constructor of repetitions. -/
  listType : Text := "list"
  /-- What stands between the rule and the number in a constructor's name. -/
  constructorInfix : Text := "_CTOR_"
  deriving DecidableEq

namespace Settings

/-- The groups of settings. -/
inductive Group
  | grammar
  | output
  deriving DecidableEq

/-- The name of a group. -/
def Group.name : Group → Text
  | grammar => "grammar"
  | output => "output"

/-- The single settings. -/
inductive Item
  | stripPrecedence
  | primitiveType
  | listType
  | constructorInfix
  deriving DecidableEq

/-- The group of a setting. -/
def Item.group : Item → Group
  | stripPrecedence => .grammar
  | primitiveType => .output
  | listType => .output
  | constructorInfix => .output

/-- The key of a setting. -/
def Item.key : Item → Text
  | stripPrecedence => "strip_precedence"
  | primitiveType => "primitive_type"
  | listType => "list_type"
  | constructorInfix => "constructor_infix"

/-- All settings. -/
def Item.all : List Item := [stripPrecedence, primitiveType, listType, constructorInfix]

/-- The setting with a key in a group. -/
def Item.find? (group : Group) (key : Text) : Option Item :=
  all.find? fun item => item.group = group ∧ item.key = key

/-- Why a table of settings is refused. -/
inductive Fault
  | unknownGroups (names : List Text)
  | notATable (group : Group)
  | unknownKeys (group : Group) (keys : List Text)
  | wrongKind (item : Item) (expected found : Datum.Kind)
  | emptyText (item : Item)
  deriving DecidableEq

/-- The place of a setting as messages name it. -/
def Item.place (item : Item) : Text := Text.concat ["[", item.group.name, "].", item.key]

/-- The description of a fault. -/
def Fault.text : Fault → Text
  | unknownGroups names => Text.concat ["unknown section(s): ", Text.join ", " names]
  | notATable group => Text.concat ["[", group.name, "] must be a table"]
  | unknownKeys group keys =>
    Text.concat ["unknown key(s) in [", group.name, "]: ", Text.join ", " keys]
  | wrongKind item expected found =>
    Text.concat [item.place, " must be of type ", expected.label, ", got ", found.label]
  | emptyText item => Text.concat [item.place, " must not be empty"]

/-- The truth value that a setting is given. -/
def truth (item : Item) : Datum → Except Fault Bool
  | .bool value => .ok value
  | other => .error (.wrongKind item .bool other.kind)

/-- The text that a setting is given; it must not be empty. -/
def nonEmptyText (item : Item) : Datum → Except Fault Text
  | .text value => if value = [] then .error (.emptyText item) else .ok value
  | other => .error (.wrongKind item .text other.kind)

/-- Gives a setting a value. -/
def assign (settings : Settings) (item : Item) (value : Datum) : Except Fault Settings :=
  match item with
  | .stripPrecedence => (truth item value).map ({ settings with stripPrecedence := · })
  | .primitiveType => (nonEmptyText item value).map ({ settings with primitiveType := · })
  | .listType => (nonEmptyText item value).map ({ settings with listType := · })
  | .constructorInfix => (nonEmptyText item value).map ({ settings with constructorInfix := · })

/-- Gives the settings of a group the values of a table, in the table's order. -/
def assignAll (group : Group) : Settings → List (Text × Datum) → Except Fault Settings
  | settings, [] => .ok settings
  | settings, (key, value) :: rest =>
    match Item.find? group key with
    | none => assignAll group settings rest
    | some item =>
      match settings.assign item value with
      | .ok settings => assignAll group settings rest
      | .error fault => .error fault

/-- The keys of a table that are not accepted, in order and once each. -/
def strangers (accepted : Text → Bool) (table : List (Text × Datum)) : List Text :=
  Text.sorted (Text.distinct ((table.map (·.1)).filter (!accepted ·)))

/-- Reads one group, which may be missing. -/
def readGroup (group : Group) (settings : Settings) : Option Datum → Except Fault Settings
  | none => .ok settings
  | some (.object table) =>
    match strangers (fun key => (Item.find? group key).isSome) table with
    | [] => assignAll group settings table
    | keys => .error (.unknownKeys group keys)
  | some _ => .error (.notATable group)

/-- The settings that a table gives, or the first fault. -/
def ofTable (table : List (Text × Datum)) : Except Fault Settings :=
  match strangers (fun key => key = Group.grammar.name ∨ key = Group.output.name) table with
  | [] =>
    match readGroup .grammar {} (Datum.lookup Group.grammar.name table) with
    | .ok settings => readGroup .output settings (Datum.lookup Group.output.name table)
    | .error fault => .error fault
  | names => .error (.unknownGroups names)

end Settings

end TreeTypes

import TreeTypes.Emission
import TreeTypes.Grammar.Document
import TreeTypes.Hoisting
import TreeTypes.Toml.Reader
import TreeTypes.TypeDecl.OfRule
import TreeTypes.TypeDecl.Render

/-!
# From a grammar to its types

The stages follow each other in a fixed order: the nested choices are hoisted,
the references are collected and checked, the order is computed, each rule is
declared and the block is written. A failure of any stage is the failure of
the whole, and nothing is written then.

Hoisting reports what it does as it goes. Every later stage is a function of
its own, without records; `Grammar.typesTraced` runs them all and adds the
records of each, which are computed from what the stage returned.

## Main definitions

* `Grammar.types`, `Grammar.typeBlock`: the declarations, and their text.
* `Grammar.typesTraced`: the same with records.
* `Generation.ofDocument`, `Generation.ofFile`: from a document and a file.
-/

namespace TreeTypes

namespace Grammar

/-- The declarations of a grammar without nested choices. -/
def typesOfHoisted (settings : Settings) (g : Grammar) : Except Failure (List TypeDecl) :=
  match References.ofGrammar g with
  | .ok refs => g.typeDecls settings (g.emissionOrder refs)
  | .error failure => .error failure

/-- The declarations of a grammar. -/
def types (settings : Settings) (g : Grammar) : Except Failure (List TypeDecl) :=
  match g.hoist {} with
  | .ok hoisted => hoisted.typesOfHoisted settings
  | .error failure => .error failure

/-- The written block of a grammar's declarations. -/
def typeBlock (settings : Settings) (g : Grammar) : Except Failure Text :=
  match g.types settings with
  | .ok decls => TypeDecl.renderBlock settings decls
  | .error failure => .error failure

/-- The record of the declarations. -/
def declaring (decls : List TypeDecl) : Record :=
  ⟨.info, .declaring, Text.concat ["Generated ", Text.numeral decls.length,
    " type declaration(s)"]⟩

/-- The declarations of a grammar, with the records of all stages. -/
def typesTraced (settings : Settings) (g : Grammar) : Traced (List TypeDecl) := do
  let hoisted ← g.hoistTraced {}
  Traced.report (References.log hoisted (References.collect hoisted).graph)
  let refs ← Traced.ofExcept (References.ofGrammar hoisted)
  Traced.report (hoisted.orderLog refs)
  let decls ← Traced.ofExcept (hoisted.typeDecls settings (hoisted.emissionOrder refs))
  Traced.report [declaring decls]
  return decls

end Grammar

namespace Generation

variable [Nesting]

/-- The block of the grammar that a document describes. -/
def ofDocument (settings : Settings) (source : Option FilePath) (document : Datum) :
    Traced Text := do
  let g ← Grammar.ofDocument settings source document
  let decls ← g.typesTraced settings
  Traced.ofExcept (TypeDecl.renderBlock settings decls)

/-- The block of the grammar in a file that has been read, or could not be. -/
def ofFile (settings : Settings) (path : FilePath) : Except FileFault Text → Traced Text
  | .ok text => ofDocument settings (some path) (.text text)
  | .error fault => .fail (.diagnosed ⟨.unreadableGrammar path fault, none⟩)

/-- The settings in a file that has been read, or could not be. -/
def settingsOfFile (path : FilePath) : Except FileFault Text → Except Failure Settings
  | .error fault => .error (.diagnosed ⟨.unreadableSettings path fault, none⟩)
  | .ok text =>
    match Toml.read text with
    | .error (.malformed fault) => .error (.diagnosed ⟨.malformedSettings path fault, none⟩)
    | .error (.longNumeral digits) => .error (.numeralTooLong digits)
    | .ok table =>
      match Settings.ofTable table with
      | .ok settings => .ok settings
      | .error fault => .error (.diagnosed ⟨.unsuitableSettings (some path) fault, none⟩)

end Generation

end TreeTypes

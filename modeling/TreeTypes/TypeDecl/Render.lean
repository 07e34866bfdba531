import TreeTypes.Settings
import TreeTypes.TypeDecl.Basic

/-!
# Writing declarations

All declarations form one block:

```
type program = list(program_0)
and program_0 =
 | PROGRAM_0_CTOR_0 (assignment_statement)
 | PROGRAM_0_CTOR_1 (expression_statement)
and comment = string
;
```

The first one begins with `type` and the others with `and`; a semicolon on a
line of its own ends the block. A tuple is a list in parentheses, a list type
is the list type's name with its item in parentheses, and a variant has each
alternative on a line of its own, the payload in parentheses.
-/

namespace TreeTypes

namespace TypeExpr

mutual

/-- A type expression as it is written. -/
def render (settings : Settings) : TypeExpr → Text
  | named name => name
  | tuple items => Text.concat ["(", Text.join ", " (renderItems settings items), ")"]
  | list item => Text.concat [settings.listType, "(", render settings item, ")"]

/-- The items of a tuple as they are written. -/
def renderItems (settings : Settings) : List TypeExpr → List Text
  | [] => []
  | item :: rest => render settings item :: renderItems settings rest

end

end TypeExpr

/-- One alternative on its line. -/
def Constructor.render (settings : Settings) (c : Constructor) : Text :=
  Text.concat ["\n | ", c.name, " (", c.payload.render settings, ")"]

/-- A shape as it is written. -/
def Shape.render (settings : Settings) : Shape → Text
  | synonym target => target.render settings
  | tuple items => (TypeExpr.tuple items).render settings
  | variant constructors => constructors.flatMap (Constructor.render settings)

/-- A declaration without its keyword. -/
def TypeDecl.render (settings : Settings) (decl : TypeDecl) : Text :=
  Text.concat [decl.name, " = ", decl.shape.render settings]

/-- The lines of a block after its first declaration. -/
def TypeDecl.renderRest (settings : Settings) (decls : List TypeDecl) : Text :=
  decls.flatMap fun decl => Text.concat ["and ", decl.render settings, "\n"]

/-- A whole block; without a declaration there is none. -/
def TypeDecl.renderBlock (settings : Settings) : List TypeDecl → Except Failure Text
  | [] => .error (.diagnosed ⟨.nothingToWrite, none⟩)
  | first :: rest =>
    .ok (Text.concat ["type ", first.render settings, "\n",
      TypeDecl.renderRest settings rest, ";\n"])

end TreeTypes

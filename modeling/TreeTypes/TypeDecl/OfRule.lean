import TreeTypes.Grammar.Basic
import TreeTypes.Text.Uppercase
import TreeTypes.TypeDecl.Basic

/-!
# The declaration of a rule

The body of a rule says what its parse trees are made of, and the declaration
says the same in types. At the top a choice becomes a variant, a sequence a
tuple, and everything else a synonym. Below the top a sequence is a tuple
type, a repetition a list type, a symbol the name of its rule, and a terminal
or the empty production the primitive type. A choice below the top has no
type; hoisting has taken those out.

The constructor of an alternative is named after the rule in upper case and
the alternative's number, with a text of the settings between them.

## Main definitions

* `Settings.constructorName`
* `TypeExpr.ofExpr`, `Shape.ofBody`, `TypeDecl.ofRule`
* `Grammar.typeDecls`: the declarations of some rules.
-/

namespace TreeTypes

/-- The name of the constructor with a number, of a rule. -/
def Settings.constructorName (settings : Settings) (rule : Text) (index : Int) : Text :=
  Text.concat [rule.uppercase, settings.constructorInfix, Text.integer index]

namespace TypeExpr

/-- The failure that a choice below the top has no type. -/
def choiceFailure (rule : Text) : Failure :=
  .located { rule := some rule, construct := some Tag.choice.text } .choiceInType

mutual

/-- The type of an expression below the top of a rule's body. -/
def ofExpr (settings : Settings) (rule : Text) : Expr → Except Failure TypeExpr
  | .symbol name => .ok (named name)
  | .terminal _ _ => .ok (named settings.primitiveType)
  | .blank => .ok (named settings.primitiveType)
  | .sequence members =>
    match ofMembers settings rule members with
    | .ok items => product items
    | .error failure => .error failure
  | .repetition _ content =>
    match ofExpr settings rule content with
    | .ok item => .ok (list item)
    | .error failure => .error failure
  | .choice _ => .error (choiceFailure rule)

/-- The types of members, or the first failure. -/
def ofMembers (settings : Settings) (rule : Text) : List Expr → Except Failure (List TypeExpr)
  | [] => .ok []
  | e :: rest =>
    match ofExpr settings rule e with
    | .error failure => .error failure
    | .ok item =>
      match ofMembers settings rule rest with
      | .ok items => .ok (item :: items)
      | .error failure => .error failure

end

end TypeExpr

namespace Shape

/-- Constructors for payloads, numbered from `index` on. -/
def constructors (settings : Settings) (rule : Text) (index : Nat) :
    List TypeExpr → List Constructor
  | [] => []
  | payload :: rest =>
    let name := settings.constructorName rule index
    ⟨name, payload⟩ :: constructors settings rule (index + 1) rest

/-- The shape of a rule's body. -/
def ofBody (settings : Settings) (rule : Text) : Expr → Except Failure Shape
  | .choice members =>
    match TypeExpr.ofMembers settings rule members with
    | .ok payloads => alternatives (constructors settings rule 0 payloads)
    | .error failure => .error failure
  | .sequence members =>
    match TypeExpr.ofMembers settings rule members with
    | .ok items => product items
    | .error failure => .error failure
  | body =>
    match TypeExpr.ofExpr settings rule body with
    | .ok target => .ok (synonym target)
    | .error failure => .error failure

end Shape

/-- The declaration of a rule. -/
def TypeDecl.ofRule (settings : Settings) (rule : Rule) : Except Failure TypeDecl :=
  match Shape.ofBody settings rule.name rule.body with
  | .ok shape => .ok ⟨rule.name, shape⟩
  | .error failure => .error failure

/-- The declarations of the rules with the given names, or the first failure. -/
def Grammar.typeDecls (settings : Settings) (g : Grammar) :
    List Text → Except Failure (List TypeDecl)
  | [] => .ok []
  | name :: rest =>
    match g.get name with
    | .error failure => .error failure
    | .ok rule =>
      match TypeDecl.ofRule settings rule with
      | .error failure => .error failure
      | .ok decl =>
        match g.typeDecls settings rest with
        | .ok decls => .ok (decl :: decls)
        | .error failure => .error failure

end TreeTypes

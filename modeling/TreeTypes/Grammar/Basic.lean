import TreeTypes.Expr.Basic
import TreeTypes.Diagnostic

/-!
# Grammars

A grammar is a list of rules in the order of their declaration, one of which
is the root, and some of which are **extras**: rules for what may stand
between any two tokens, such as comments. Extras are given twice, by a flag on
each rule and by a list that fixes their order; `Grammar.ofRules` brings the
two into agreement and is the only way in which the program makes a grammar.

Rules are looked up by name. Since their names are distinct, the first rule
with a name is the rule with that name.

## Main definitions

* `Rule`, `Grammar`
* `Grammar.ofRules`: the grammar of some rules, or the first reason why there
  is none.
* `Grammar.find?`, `Grammar.get`, `Grammar.has`: looking up.
* `Grammar.order`, `Grammar.declared`, `Grammar.extraRules`, `Grammar.bodies`.
-/

namespace TreeTypes

/-- One production of a grammar. -/
structure Rule where
  name : Text
  body : Expr
  /-- The rule is listed among the grammar's extras. -/
  isExtra : Bool := false
  /-- The rule was not declared but made by hoisting. -/
  synthetic : Bool := false
  deriving DecidableEq

/-- Rules in declaration order, the name of the root and the names of the extras in order. -/
structure Grammar where
  name : Text
  root : Text
  rules : List Rule
  extras : List Text
  deriving DecidableEq

namespace Grammar

/-- The first name that stood earlier among the names. -/
def firstRepeated : (seen : List Text) → List Text → Option Text
  | _, [] => none
  | seen, name :: rest => if name ∈ seen then some name else firstRepeated (name :: seen) rest

/-- The root that is asked for, if any, and otherwise the first rule. -/
def chooseRoot (root : Option Text) (first : Text) : Text := (Location.given root).getD first

/-- A failure without a location. -/
def refuse {α : Type} (cause : Cause) : Except Failure α := .error (.diagnosed ⟨cause, none⟩)

/-- Fails with the first name that is none of the given ones. -/
def requireAll (names : List Text) : List Text → Except Failure Unit
  | [] => .ok ()
  | name :: rest => if name ∈ names then requireAll names rest else refuse (.undefinedRule name)

/--
The grammar of some rules. Names may not repeat, there has to be a rule, and
the root and all listed extras have to be rules. The extras are the listed
ones without repetitions, and after them the rules that are flagged but not
listed; exactly these are flagged in the result.
-/
def ofRules (name : Text) (rules : List Rule) (root : Option Text) (extras : List Text) :
    Except Failure Grammar :=
  let names := rules.map Rule.name
  match firstRepeated [] names, names with
  | some repeated, _ => refuse (.duplicateRule repeated)
  | none, [] => refuse (.noRules name)
  | none, first :: _ =>
    let root := chooseRoot root first
    if root ∈ names then
      let listed := Text.distinct extras
      match requireAll names listed with
      | .error failure => .error failure
      | .ok () =>
        let flagged := (rules.filter fun rule => rule.isExtra ∧ rule.name ∉ listed).map Rule.name
        .ok {
          name, root
          rules := rules.map fun rule =>
            if rule.name ∈ listed then { rule with isExtra := true } else rule
          extras := listed ++ flagged }
    else refuse (.undefinedRule root)

/-! ## Looking up -/

/-- The rule with a name. -/
def find? (g : Grammar) (name : Text) : Option Rule := g.rules.find? (·.name = name)

/-- The rule with a name, or the failure that there is none. -/
def get (g : Grammar) (name : Text) : Except Failure Rule :=
  match g.find? name with
  | some rule => .ok rule
  | none => refuse (.undefinedRule name)

/-- A rule has this name. -/
def has (g : Grammar) (name : Text) : Bool := g.rules.any (·.name = name)

/-- The names of the rules in declaration order. -/
def order (g : Grammar) : List Text := g.rules.map Rule.name

/-- The rules that are no extras, in declaration order. -/
def declared (g : Grammar) : List Rule := g.rules.filter (!·.isExtra)

/-- The extra rules, in the order of the extras. -/
def extraRules (g : Grammar) : List Rule := g.extras.filterMap g.find?

/-- The names and bodies of the rules in declaration order. -/
def bodies (g : Grammar) : List (Text × Expr) := g.rules.map fun rule => (rule.name, rule.body)

end Grammar

end TreeTypes

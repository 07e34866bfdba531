import TreeTypes.Diagnostic

/-!
# Type declarations

The output is a block of mutually recursive declarations, one for each rule.
Type expressions refer to declarations by name, and so they do to the
primitive type: the names of rules and the primitive type share one space.

Products and variants have at least one component. The constructors that
check this, `TypeExpr.product`, `Shape.product` and `Shape.alternatives`, are
the ones that the program uses.

## Main definitions

* `TypeExpr`: a name, a tuple or a list.
* `Constructor`, `Shape`, `TypeDecl`.
-/

namespace TreeTypes

/-- A type expression. -/
inductive TypeExpr
  /-- The declaration of this name, or the primitive type. -/
  | named (name : Text)
  | tuple (items : List TypeExpr)
  | list (item : TypeExpr)
  deriving Inhabited

/-- One labelled alternative of a variant. -/
structure Constructor where
  name : Text
  payload : TypeExpr

/-- What a name is declared to be. -/
inductive Shape
  | synonym (target : TypeExpr)
  | tuple (items : List TypeExpr)
  | variant (constructors : List Constructor)

/-- The declaration of a name. -/
structure TypeDecl where
  name : Text
  shape : Shape

/-- A tuple type; without items there is none. -/
def TypeExpr.product (items : List TypeExpr) : Except Failure TypeExpr :=
  if items.isEmpty then .error .emptyComposite else .ok (.tuple items)

/-- The shape of a tuple; without items there is none. -/
def Shape.product (items : List TypeExpr) : Except Failure Shape :=
  if items.isEmpty then .error .emptyComposite else .ok (.tuple items)

/-- The shape of a variant; without constructors there is none. -/
def Shape.alternatives (constructors : List Constructor) : Except Failure Shape :=
  if constructors.isEmpty then .error .emptyComposite else .ok (.variant constructors)

end TreeTypes

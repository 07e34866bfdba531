import TreeTypes.Grammar.Basic
import TreeTypes.TypeDecl.Basic

/-!
# Parse trees

What grammars and types have in common are the trees that both describe. A
tree keeps of a parse what types can see: that something is a token, which
parts a sequence has, how often something was repeated, and which alternative
was taken. The names of rules do not show in it, so a rule that only stands
for another derives the same trees.

On the side of the grammar, `Derives` says which trees an expression stands
for. On the side of the types, `HasValue` says which trees are values of a type
expression over a block of declarations. Both relations hold finite trees only,
since their derivations are finite; rules and declarations may be recursive.
-/

namespace TreeTypes

/-- A parse without the names of rules. -/
inductive ParseTree
  | leaf
  | tuple (items : List ParseTree)
  | list (items : List ParseTree)
  /-- The alternative with this number was taken. -/
  | alternative (index : Nat) (tree : ParseTree)

/-- The trees that an expression stands for over the rules of a grammar. -/
inductive Derives (g : Grammar) : Expr → ParseTree → Prop
  | symbol {rule : Rule} {name : Text} {tree : ParseTree} (hFind : g.find? name = some rule)
      (hBody : Derives g rule.body tree) : Derives g (.symbol name) tree
  | terminal (kind : TerminalKind) (value : Text) : Derives g (.terminal kind value) .leaf
  | blank : Derives g .blank .leaf
  | sequence {members : List Expr} {trees : List ParseTree}
      (hLength : members.length = trees.length)
      (hMembers : ∀ pair ∈ members.zip trees, Derives g pair.1 pair.2) :
      Derives g (.sequence members) (.tuple trees)
  | choice {members : List Expr} {index : Nat} {member : Expr} {tree : ParseTree}
      (hMember : members[index]? = some member) (hTree : Derives g member tree) :
      Derives g (.choice members) (.alternative index tree)
  | repetition {kind : RepetitionKind} {content : Expr} {trees : List ParseTree}
      (hTrees : ∀ tree ∈ trees, Derives g content tree) :
      Derives g (.repetition kind content) (.list trees)

/-- The trees that are values of a type expression over a block of declarations. -/
inductive HasValue (primitive : Text) (decls : List TypeDecl) : TypeExpr → ParseTree → Prop
  | primitive : HasValue primitive decls (.named primitive) .leaf
  /-- A name that is declared as a synonym. -/
  | synonym {name : Text} {target : TypeExpr} {tree : ParseTree}
      (hDecl : ⟨name, .synonym target⟩ ∈ decls) (hTree : HasValue primitive decls target tree) :
      HasValue primitive decls (.named name) tree
  /-- A name that is declared as a product. -/
  | product {name : Text} {items : List TypeExpr} {trees : List ParseTree}
      (hDecl : ⟨name, .tuple items⟩ ∈ decls) (hLength : items.length = trees.length)
      (hItems : ∀ pair ∈ items.zip trees, HasValue primitive decls pair.1 pair.2) :
      HasValue primitive decls (.named name) (.tuple trees)
  /-- A name that is declared as a variant. -/
  | variant {name : Text} {constructors : List Constructor} {index : Nat}
      {constructor : Constructor} {tree : ParseTree}
      (hDecl : ⟨name, .variant constructors⟩ ∈ decls)
      (hConstructor : constructors[index]? = some constructor)
      (hTree : HasValue primitive decls constructor.payload tree) :
      HasValue primitive decls (.named name) (.alternative index tree)
  | tuple {items : List TypeExpr} {trees : List ParseTree}
      (hLength : items.length = trees.length)
      (hItems : ∀ pair ∈ items.zip trees, HasValue primitive decls pair.1 pair.2) :
      HasValue primitive decls (.tuple items) (.tuple trees)
  | list {item : TypeExpr} {trees : List ParseTree}
      (hTrees : ∀ tree ∈ trees, HasValue primitive decls item tree) :
      HasValue primitive decls (.list item) (.list trees)

end TreeTypes

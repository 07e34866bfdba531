import TreeTypes.Text.Basic

/-!
# Rule bodies

The body of a grammar rule is an expression over symbols, terminals and the
empty production, built by sequence, choice and repetition. Two terminals, a
literal text and a pattern, give the same leaf of a parse tree, and so do the
two repetitions give a list; they are kept apart all the same, because a body
that is taken apart and put together again has to be the body it was.

An expression is plain data. `Expr.Valid` says that names and lists of members
are not empty. Every expression that a document holds is valid, and besides the
names of its symbols are made of characters. That is asked of a name where a
symbol is made of it, by the decoder and by hoisting, and not of the name of a
rule, so it is no part of validity; what hoisting does to a rule whose name
holds a surrogate is in `TreeTypes.Hoisting`.

A function on expressions comes as a pair, one for an expression and one for a
list of members, and a lemma ties the second to the list operation that it is.
Proofs use `Expr.structuralInduction`, whose hypothesis for a sequence or a
choice speaks about every member.

## Main definitions

* `Expr`, `Expr.Valid`, `Expr.size`
* `Expr.children`, `Expr.mapChildrenM`: one level down.
* `Expr.symbols`: the names referred to, in pre-order.
* `Expr.containsChoice`, `Expr.hasNestedChoice`
* `Expr.text`: the form that messages and listings show.
-/

namespace TreeTypes

/-- What a terminal is given by. -/
inductive TerminalKind
  | literal
  | pattern
  deriving DecidableEq

/-- How often a repetition asks for its content at least. -/
inductive RepetitionKind
  | zeroOrMore
  | oneOrMore
  deriving DecidableEq

/-- A rule body. -/
inductive Expr
  /-- A reference to the rule of this name. -/
  | symbol (name : Text)
  | terminal (kind : TerminalKind) (value : Text)
  /-- The empty production. -/
  | blank
  | sequence (members : List Expr)
  | choice (members : List Expr)
  | repetition (kind : RepetitionKind) (content : Expr)
  deriving Inhabited

namespace Expr

/-- Induction over expressions, with a hypothesis for every member. -/
theorem structuralInduction {motive : Expr → Prop}
    (symbol : ∀ name, motive (symbol name))
    (terminal : ∀ kind value, motive (terminal kind value))
    (blank : motive blank)
    (sequence : ∀ members, (∀ e ∈ members, motive e) → motive (sequence members))
    (choice : ∀ members, (∀ e ∈ members, motive e) → motive (choice members))
    (repetition : ∀ kind content, motive content → motive (repetition kind content)) :
    ∀ e, motive e := fun e =>
  Expr.rec
    (motive_1 := motive)
    (motive_2 := fun members => ∀ e ∈ members, motive e)
    symbol terminal blank
    (fun members h => sequence members h)
    (fun members h => choice members h)
    (fun kind content h => repetition kind content h)
    (by simp)
    (fun _ _ hHead hTail => List.forall_mem_cons.2 ⟨hHead, hTail⟩)
    e

/-! ## Equality -/

mutual

/-- Decides equality of expressions. -/
def decEq : (a b : Expr) → Decidable (a = b)
  | .symbol m, .symbol n => decidable_of_iff (m = n) (by simp)
  | .terminal j s, .terminal k t => decidable_of_iff (j = k ∧ s = t) (by simp)
  | .blank, .blank => isTrue rfl
  | .sequence as, .sequence bs =>
    match decEqMembers as bs with
    | isTrue h => isTrue (by rw [h])
    | isFalse h => isFalse (by simpa using h)
  | .choice as, .choice bs =>
    match decEqMembers as bs with
    | isTrue h => isTrue (by rw [h])
    | isFalse h => isFalse (by simpa using h)
  | .repetition j a, .repetition k b =>
    match decEq a b with
    | isTrue h => decidable_of_iff (j = k) (by simp [h])
    | isFalse h => isFalse (by simp [h])
  | .symbol _, .terminal .. | .symbol _, .blank | .symbol _, .sequence _ | .symbol _, .choice _
  | .symbol _, .repetition .. => isFalse (by simp)
  | .terminal .., .symbol _ | .terminal .., .blank | .terminal .., .sequence _
  | .terminal .., .choice _ | .terminal .., .repetition .. => isFalse (by simp)
  | .blank, .symbol _ | .blank, .terminal .. | .blank, .sequence _ | .blank, .choice _
  | .blank, .repetition .. => isFalse (by simp)
  | .sequence _, .symbol _ | .sequence _, .terminal .. | .sequence _, .blank
  | .sequence _, .choice _ | .sequence _, .repetition .. => isFalse (by simp)
  | .choice _, .symbol _ | .choice _, .terminal .. | .choice _, .blank
  | .choice _, .sequence _ | .choice _, .repetition .. => isFalse (by simp)
  | .repetition .., .symbol _ | .repetition .., .terminal .. | .repetition .., .blank
  | .repetition .., .sequence _ | .repetition .., .choice _ => isFalse (by simp)

/-- Decides equality of lists of members. -/
def decEqMembers : (as bs : List Expr) → Decidable (as = bs)
  | [], [] => isTrue rfl
  | [], _ :: _ => isFalse (by simp)
  | _ :: _, [] => isFalse (by simp)
  | a :: as, b :: bs =>
    match decEq a b with
    | isTrue h =>
      match decEqMembers as bs with
      | isTrue h' => isTrue (by rw [h, h'])
      | isFalse h' => isFalse (by simp [h'])
    | isFalse h => isFalse (by simp [h])

end

instance : DecidableEq Expr := decEq

/-! ## Validity and size -/

mutual

/-- Names and lists of members are not empty. The names of symbols may hold surrogates, which they
do not in a document. -/
def Valid : Expr → Prop
  | symbol name => name ≠ []
  | terminal _ _ => True
  | blank => True
  | sequence members => members ≠ [] ∧ ValidMembers members
  | choice members => members ≠ [] ∧ ValidMembers members
  | repetition _ content => Valid content

/-- Every member is valid. -/
def ValidMembers : List Expr → Prop
  | [] => True
  | e :: rest => Valid e ∧ ValidMembers rest

end

theorem validMembers_iff {members : List Expr} :
    ValidMembers members ↔ ∀ e ∈ members, Valid e := by
  induction members with
  | nil => simp [ValidMembers]
  | cons e rest ih => simp [ValidMembers, ih]

mutual

/-- The number of nodes of an expression. -/
def size : Expr → Nat
  | symbol _ => 1
  | terminal _ _ => 1
  | blank => 1
  | sequence members => 1 + sizeMembers members
  | choice members => 1 + sizeMembers members
  | repetition _ content => 1 + size content

/-- The number of nodes of all members. -/
def sizeMembers : List Expr → Nat
  | [] => 0
  | e :: rest => size e + sizeMembers rest

end

theorem size_pos (e : Expr) : 0 < e.size := by
  cases e <;> simp only [size] <;> omega

/-! ## One level down -/

/-- The immediate parts of an expression. -/
def children : Expr → List Expr
  | symbol _ => []
  | terminal _ _ => []
  | blank => []
  | sequence members => members
  | choice members => members
  | repetition _ content => [content]

/--
Replaces the immediate parts from left to right by what `f` makes of them. A
leaf stays as it is, and `f` does not see what lies deeper.
-/
def mapChildrenM {m : Type → Type} [Monad m] (f : Expr → m Expr) : Expr → m Expr
  | sequence members => sequence <$> members.mapM f
  | choice members => choice <$> members.mapM f
  | repetition kind content => repetition kind <$> f content
  | leaf => pure leaf

/-! ## References -/

mutual

/-- The names that an expression refers to, in pre-order, with repetitions. -/
def symbols : Expr → List Text
  | symbol name => [name]
  | terminal _ _ => []
  | blank => []
  | sequence members => symbolsOfMembers members
  | choice members => symbolsOfMembers members
  | repetition _ content => symbols content

/-- The names that the members refer to. -/
def symbolsOfMembers : List Expr → List Text
  | [] => []
  | e :: rest => symbols e ++ symbolsOfMembers rest

end

@[simp] theorem symbolsOfMembers_eq (members : List Expr) :
    symbolsOfMembers members = members.flatMap symbols := by
  induction members with
  | nil => rfl
  | cons e rest ih => simp [symbolsOfMembers, ih]

/-! ## Choices -/

mutual

/-- A choice stands somewhere in the expression. -/
def containsChoice : Expr → Bool
  | symbol _ => false
  | terminal _ _ => false
  | blank => false
  | sequence members => membersContainChoice members
  | choice _ => true
  | repetition _ content => containsChoice content

/-- A choice stands somewhere in the members. -/
def membersContainChoice : List Expr → Bool
  | [] => false
  | e :: rest => containsChoice e || membersContainChoice rest

end

@[simp] theorem membersContainChoice_eq (members : List Expr) :
    membersContainChoice members = members.any containsChoice := by
  induction members with
  | nil => rfl
  | cons e rest ih => simp [membersContainChoice, ih]

/-- A choice stands below the top of the expression. -/
def hasNestedChoice (e : Expr) : Bool := e.children.any containsChoice

/-! ## The shown form -/

mutual

/-- An expression as messages and listings show it. -/
def text : Expr → Text
  | symbol name => name
  | terminal .literal value => Text.concat ["\"", value, "\""]
  | terminal .pattern value => Text.concat ["/", value, "/"]
  | blank => "blank()"
  | sequence members => Text.concat ["seq(", Text.join ", " (memberTexts members), ")"]
  | choice members => Text.concat ["choice(", Text.join ", " (memberTexts members), ")"]
  | repetition .zeroOrMore content => Text.concat ["repeat(", text content, ")"]
  | repetition .oneOrMore content => Text.concat ["repeat1(", text content, ")"]

/-- The members as they are shown. -/
def memberTexts : List Expr → List Text
  | [] => []
  | e :: rest => text e :: memberTexts rest

end

end Expr

end TreeTypes

import TreeTypes.Proofs.TypeDecl.Typing

/-!
# The names in a declaration

A type expression mentions names, and a name is either that of a declaration
or that of the primitive type; nothing in the expression tells the two apart.
Which one is meant follows from the body that the declaration was made from.
The names come in the order in which the body has its symbols and leaves, a
symbol giving its own name and a leaf the primitive type.

So what a declaration mentions is what its rule mentions, but for the
primitive type, and if no declaration bears the name of that, then leaving out
the names that are not declared gives the references of the rule back.

## Main results

* `Shaped.names_eq` — the names in a shape, from the body.
* `Expr.mem_typeNames` — they are symbols, or the primitive type.
* `Expr.filter_typeNames` — without the primitive type they are the symbols.
-/

namespace TreeTypes

/-! ## Names -/

namespace TypeExpr

mutual

/-- The names in a type expression, from left to right, with repetitions. -/
def names : TypeExpr → List Text
  | named name => [name]
  | tuple items => namesOfItems items
  | list item => names item

/-- The names in the items of a tuple. -/
def namesOfItems : List TypeExpr → List Text
  | [] => []
  | item :: rest => names item ++ namesOfItems rest

end

@[simp] theorem namesOfItems_eq (items : List TypeExpr) :
    namesOfItems items = items.flatMap names := by
  induction items with
  | nil => rfl
  | cons item rest ih => simp [namesOfItems, ih]

end TypeExpr

/-- The names in a shape; labels of constructors are not among them. -/
def Shape.names : Shape → List Text
  | synonym target => target.names
  | tuple items => items.flatMap TypeExpr.names
  | variant constructors => constructors.flatMap fun c => c.payload.names

/-- The names that a declaration mentions. -/
def TypeDecl.mentions (decl : TypeDecl) : List Text := decl.shape.names

namespace Expr

mutual

/-- The names that the type of an expression mentions: those of the symbols, and the primitive
type for every leaf. -/
def typeNames (primitive : Text) : Expr → List Text
  | symbol name => [name]
  | terminal _ _ => [primitive]
  | blank => [primitive]
  | sequence members => typeNamesOfMembers primitive members
  | choice members => typeNamesOfMembers primitive members
  | repetition _ content => typeNames primitive content

/-- The names that the types of members mention. -/
def typeNamesOfMembers (primitive : Text) : List Expr → List Text
  | [] => []
  | e :: rest => typeNames primitive e ++ typeNamesOfMembers primitive rest

end

@[simp] theorem typeNamesOfMembers_eq (primitive : Text) (members : List Expr) :
    typeNamesOfMembers primitive members = members.flatMap (typeNames primitive) := by
  induction members with
  | nil => rfl
  | cons e rest ih => simp [typeNamesOfMembers, ih]

/-- What the type of an expression mentions are its symbols and the primitive type. -/
theorem mem_typeNames {primitive : Text} {e : Expr} {name : Text}
    (h : name ∈ e.typeNames primitive) : name = primitive ∨ name ∈ e.symbols := by
  induction e using structuralInduction with
  | symbol other => exact Or.inr h
  | terminal kind value => exact Or.inl (List.mem_singleton.1 h)
  | blank => exact Or.inl (List.mem_singleton.1 h)
  | sequence members ih | choice members ih =>
      rw [typeNames, typeNamesOfMembers_eq, List.mem_flatMap] at h
      obtain ⟨e, he, hName⟩ := h
      rw [symbols, symbolsOfMembers_eq]
      exact (ih e he hName).imp id fun hSymbol => List.mem_flatMap.2 ⟨e, he, hSymbol⟩
  | repetition kind content ih => exact ih h

/-- If all symbols are kept and the primitive type is not, the symbols are what is kept. -/
theorem filter_typeNames {primitive : Text} {keep : Text → Bool} (hPrimitive : keep primitive = false)
    {e : Expr} (hSymbols : ∀ name ∈ e.symbols, keep name = true) :
    (e.typeNames primitive).filter keep = e.symbols := by
  induction e using structuralInduction with
  | symbol name => exact List.filter_cons_of_pos (hSymbols name (List.mem_singleton.2 rfl))
  | terminal kind value => exact List.filter_cons_of_neg (by simp [hPrimitive])
  | blank => exact List.filter_cons_of_neg (by simp [hPrimitive])
  | sequence members ih | choice members ih =>
      rw [symbols, symbolsOfMembers_eq] at hSymbols ⊢
      rw [typeNames, typeNamesOfMembers_eq, List.filter_flatMap]
      refine List.flatMap_congr fun e he => ih e he fun name hName => ?_
      exact hSymbols name (List.mem_flatMap.2 ⟨e, he, hName⟩)
  | repetition kind content ih => exact ih hSymbols

end Expr

/-! ## What is mentioned, from the body -/

/-- A type mentions the names that its form asks for. -/
theorem Typed.names_eq {primitive : Text} {e : Expr} {type : TypeExpr}
    (h : Typed primitive e type) : type.names = e.typeNames primitive := by
  induction h with
  | symbol name => rfl
  | terminal kind value => rfl
  | blank => rfl
  | sequence hLength _ ih =>
      rw [TypeExpr.names, TypeExpr.namesOfItems_eq, Expr.typeNames, Expr.typeNamesOfMembers_eq]
      exact flatMap_eq_of_mem_zip hLength ih
  | repetition _ ih => exact ih

/-- A shape mentions the names that its form asks for. -/
theorem Shaped.names_eq {primitive : Text} {body : Expr} {shape : Shape}
    (h : Shaped primitive body shape) : shape.names = body.typeNames primitive := by
  cases h with
  | choice hLength hMembers =>
      rw [Shape.names, Expr.typeNames, Expr.typeNamesOfMembers_eq]
      exact flatMap_eq_of_mem_zip hLength fun pair hPair => (hMembers pair hPair).names_eq
  | sequence hLength hMembers =>
      rw [Shape.names, Expr.typeNames, Expr.typeNamesOfMembers_eq]
      exact flatMap_eq_of_mem_zip hLength fun pair hPair => (hMembers pair hPair).names_eq
  | other hTyped => exact hTyped.names_eq

end TreeTypes

import TreeTypes.Proofs.Hoisting.Outline
import TreeTypes.TypeDecl.OfRule
import TreeTypes.Proofs.Grammar.WellFormed

/-!
# The type of an expression

Declaring a rule can fail, on a choice below the top and on an empty sequence
or choice. Neither occurs once a valid grammar has been hoisted, and what is
declared then is described by two relations that have no failures in them.
`Typed` says that a type expression has the form of an expression, with a name
for a name, the primitive type for a leaf, and items in the place of members;
`Shaped` says so of a rule's body.

The relations keep what later arguments look at and leave out what they do
not, the names of the constructors above all.

## Main results

* `Shape.formed_of_ofBody` — the three ways in which a body gets its shape.
* `TypeExpr.typed_of_ofExpr`, `Shape.shaped_of_ofBody` — what is declared has
  the form of what it was made from.
* `TypeExpr.exists_ofExpr`, `Shape.exists_ofBody` — valid expressions without
  nested choices have types.
* `Grammar.ofRule_of_typeDecls` — whose declarations a grammar has.
* `Grammar.shaped_of_typeDecls`, `Grammar.exists_typeDecls` — the form and the
  existence of the declarations of a grammar.
-/

namespace TreeTypes

/-- A type expression has the form of an expression without choices. -/
inductive Typed (primitive : Text) : Expr → TypeExpr → Prop
  | symbol (name : Text) : Typed primitive (.symbol name) (.named name)
  | terminal (kind : TerminalKind) (value : Text) :
      Typed primitive (.terminal kind value) (.named primitive)
  | blank : Typed primitive .blank (.named primitive)
  | sequence {members : List Expr} {items : List TypeExpr} (hLength : members.length = items.length)
      (hMembers : ∀ pair ∈ members.zip items, Typed primitive pair.1 pair.2) :
      Typed primitive (.sequence members) (.tuple items)
  | repetition {kind : RepetitionKind} {content : Expr} {item : TypeExpr}
      (hContent : Typed primitive content item) :
      Typed primitive (.repetition kind content) (.list item)

/-- A shape has the form of a body without nested choices. -/
inductive Shaped (primitive : Text) : Expr → Shape → Prop
  | choice {members : List Expr} {constructors : List Constructor}
      (hLength : members.length = constructors.length)
      (hMembers : ∀ pair ∈ members.zip constructors, Typed primitive pair.1 pair.2.payload) :
      Shaped primitive (.choice members) (.variant constructors)
  | sequence {members : List Expr} {items : List TypeExpr}
      (hLength : members.length = items.length)
      (hMembers : ∀ pair ∈ members.zip items, Typed primitive pair.1 pair.2) :
      Shaped primitive (.sequence members) (.tuple items)
  | other {e : Expr} {target : TypeExpr} (h : Typed primitive e target) :
      Shaped primitive e (.synonym target)

namespace TypeExpr

theorem eq_tuple_of_product {items : List TypeExpr} {type : TypeExpr}
    (h : product items = .ok type) : type = .tuple items := by
  rw [product] at h
  split at h
  · exact absurd h (by simp)
  · exact (Except.ok.inj h).symm

/-! ## Types have the form of what they are made from -/

mutual

/-- A type has the form of the expression that it was made from. -/
theorem typed_of_ofExpr {settings : Settings} {rule : Text} {e : Expr} {type : TypeExpr}
    (h : ofExpr settings rule e = .ok type) : Typed settings.primitiveType e type := by
  cases e with
  | symbol name =>
      rw [← Except.ok.inj h]
      exact .symbol name
  | terminal kind value =>
      rw [← Except.ok.inj h]
      exact .terminal kind value
  | blank =>
      rw [← Except.ok.inj h]
      exact .blank
  | sequence members =>
      rw [ofExpr] at h
      split at h
      · rename_i items hItems
        obtain ⟨hLength, hMembers⟩ := typed_of_ofMembers hItems
        rw [eq_tuple_of_product h]
        exact .sequence hLength hMembers
      · exact absurd h (by simp)
  | repetition kind content =>
      rw [ofExpr] at h
      split at h
      · rename_i item hItem
        rw [← Except.ok.inj h]
        exact .repetition (typed_of_ofExpr hItem)
      · exact absurd h (by simp)
  | choice members => exact absurd h (by simp [ofExpr])

/-- The types of members are as many, and each has the form of its member. -/
theorem typed_of_ofMembers {settings : Settings} {rule : Text} {members : List Expr}
    {items : List TypeExpr} (h : ofMembers settings rule members = .ok items) :
    members.length = items.length ∧
      ∀ pair ∈ members.zip items, Typed settings.primitiveType pair.1 pair.2 := by
  cases members with
  | nil =>
      rw [← Except.ok.inj h]
      exact ⟨rfl, by simp⟩
  | cons e rest =>
      rw [ofMembers] at h
      split at h
      · exact absurd h (by simp)
      · rename_i item hItem
        split at h
        · rename_i others hOthers
          obtain ⟨hLength, hRest⟩ := typed_of_ofMembers hOthers
          rw [← Except.ok.inj h]
          refine ⟨by simpa using hLength, ?_⟩
          intro pair hPair
          rw [List.zip_cons_cons] at hPair
          rcases List.mem_cons.1 hPair with rfl | hLater
          · exact typed_of_ofExpr hItem
          · exact hRest pair hLater
        · exact absurd h (by simp)

end

/-! ## Types exist -/

mutual

/-- A valid expression without a choice has a type. -/
theorem exists_ofExpr (settings : Settings) (rule : Text) {e : Expr} (hValid : e.Valid)
    (hFlat : e.containsChoice = false) : ∃ type, ofExpr settings rule e = .ok type := by
  cases e with
  | symbol name => exact ⟨_, rfl⟩
  | terminal kind value => exact ⟨_, rfl⟩
  | blank => exact ⟨_, rfl⟩
  | sequence members =>
      obtain ⟨hNonempty, hMembers⟩ := hValid
      obtain ⟨items, hItems⟩ := exists_ofMembers settings rule hMembers hFlat
      have hSome := isEmpty_eq_false_of_length_eq (typed_of_ofMembers hItems).1 hNonempty
      refine ⟨.tuple items, ?_⟩
      rw [ofExpr, hItems]
      simp [product, hSome]
  | repetition kind content =>
      obtain ⟨item, hItem⟩ := exists_ofExpr settings rule (e := content) hValid hFlat
      refine ⟨.list item, ?_⟩
      rw [ofExpr, hItem]
  | choice members => exact absurd hFlat (by simp [Expr.containsChoice])

/-- Valid members without a choice have types. -/
theorem exists_ofMembers (settings : Settings) (rule : Text) {members : List Expr}
    (hValid : Expr.ValidMembers members) (hFlat : Expr.membersContainChoice members = false) :
    ∃ items, ofMembers settings rule members = .ok items := by
  cases members with
  | nil => exact ⟨[], rfl⟩
  | cons e rest =>
      rw [Expr.membersContainChoice, Bool.or_eq_false_iff] at hFlat
      obtain ⟨item, hItem⟩ := exists_ofExpr settings rule hValid.1 hFlat.1
      obtain ⟨items, hItems⟩ := exists_ofMembers settings rule hValid.2 hFlat.2
      refine ⟨item :: items, ?_⟩
      rw [ofMembers, hItem]
      simp only
      rw [hItems]

end

end TypeExpr

namespace Shape

theorem map_payload_constructors (settings : Settings) (rule : Text) (index : Nat)
    (payloads : List TypeExpr) :
    (constructors settings rule index payloads).map Constructor.payload = payloads := by
  induction payloads generalizing index with
  | nil => rfl
  | cons payload rest ih =>
      rw [constructors, List.map_cons, ih]

theorem length_constructors (settings : Settings) (rule : Text) (index : Nat)
    (payloads : List TypeExpr) :
    (constructors settings rule index payloads).length = payloads.length := by
  rw [← List.length_map (f := Constructor.payload), map_payload_constructors]

theorem eq_tuple_of_product {items : List TypeExpr} {shape : Shape}
    (h : product items = .ok shape) : shape = .tuple items := by
  rw [product] at h
  split at h
  · exact absurd h (by simp)
  · exact (Except.ok.inj h).symm

theorem eq_variant_of_alternatives {constructors : List Constructor} {shape : Shape}
    (h : alternatives constructors = .ok shape) : shape = .variant constructors := by
  rw [alternatives] at h
  split at h
  · exact absurd h (by simp)
  · exact (Except.ok.inj h).symm

/-- A repetition at the top is a synonym for its type. -/
theorem ofBody_repetition (settings : Settings) (rule : Text) (kind : RepetitionKind)
    (content : Expr) :
    ofBody settings rule (.repetition kind content) =
      (TypeExpr.ofExpr settings rule (.repetition kind content)).map synonym := by
  cases hType : TypeExpr.ofExpr settings rule (.repetition kind content) with
  | error failure => rw [ofBody, hType] <;> simp [Except.map]
  | ok target => rw [ofBody, hType] <;> simp [Except.map]

/-- The ways in which a body gets its shape. -/
inductive Formed (settings : Settings) (rule : Text) : Expr → Shape → Prop
  | choice {members : List Expr} {payloads : List TypeExpr}
      (hPayloads : TypeExpr.ofMembers settings rule members = .ok payloads) :
      Formed settings rule (.choice members) (.variant (constructors settings rule 0 payloads))
  | sequence {members : List Expr} {items : List TypeExpr}
      (hItems : TypeExpr.ofMembers settings rule members = .ok items) :
      Formed settings rule (.sequence members) (.tuple items)
  | other {body : Expr} {target : TypeExpr} (hBody : ∀ members, body ≠ .sequence members)
      (hTarget : TypeExpr.ofExpr settings rule body = .ok target) :
      Formed settings rule body (.synonym target)

theorem formed_of_ofBody {settings : Settings} {rule : Text} {body : Expr} {shape : Shape}
    (h : ofBody settings rule body = .ok shape) : Formed settings rule body shape := by
  cases body with
  | choice members =>
      rw [ofBody] at h
      split at h
      · rename_i payloads hPayloads
        rw [eq_variant_of_alternatives h]
        exact .choice hPayloads
      · exact absurd h (by simp)
  | sequence members =>
      rw [ofBody] at h
      split at h
      · rename_i items hItems
        rw [eq_tuple_of_product h]
        exact .sequence hItems
      · exact absurd h (by simp)
  | repetition kind content =>
      rw [ofBody_repetition] at h
      cases hTarget : TypeExpr.ofExpr settings rule (.repetition kind content) with
      | error failure =>
          rw [hTarget] at h
          exact absurd h (by simp [Except.map])
      | ok target =>
          rw [hTarget] at h
          rw [← Except.ok.inj h]
          exact .other (by simp) hTarget
  | symbol name =>
      rw [← Except.ok.inj h]
      exact .other (by simp) rfl
  | terminal kind value =>
      rw [← Except.ok.inj h]
      exact .other (by simp) rfl
  | blank =>
      rw [← Except.ok.inj h]
      exact .other (by simp) rfl

/-- A shape has the form of the body that it was made from. -/
theorem shaped_of_ofBody {settings : Settings} {rule : Text} {body : Expr} {shape : Shape}
    (h : ofBody settings rule body = .ok shape) : Shaped settings.primitiveType body shape := by
  cases formed_of_ofBody h with
  | @choice members payloads hPayloads =>
      obtain ⟨hLength, hItems⟩ := TypeExpr.typed_of_ofMembers hPayloads
      refine .choice (hLength.trans (length_constructors settings rule 0 payloads).symm) ?_
      intro pair hPair
      obtain ⟨i, hMember, hConstructor⟩ := mem_zip_iff.1 hPair
      refine hItems (pair.1, pair.2.payload) (mem_zip_iff.2 ⟨i, hMember, ?_⟩)
      rw [← map_payload_constructors settings rule 0 payloads, List.getElem?_map,
        hConstructor, Option.map_some]
  | sequence hItems =>
      obtain ⟨hLength, hMembers⟩ := TypeExpr.typed_of_ofMembers hItems
      exact .sequence hLength hMembers
  | other _ hTarget => exact .other (TypeExpr.typed_of_ofExpr hTarget)

/-- A valid body without a nested choice has a shape. -/
theorem exists_ofBody (settings : Settings) (rule : Text) {body : Expr} (hValid : body.Valid)
    (hFlat : body.hasNestedChoice = false) : ∃ shape, ofBody settings rule body = .ok shape := by
  rw [Expr.membersContainChoice_children] at hFlat
  cases body with
  | choice members =>
      obtain ⟨hNonempty, hMembers⟩ := hValid
      obtain ⟨payloads, hPayloads⟩ := TypeExpr.exists_ofMembers settings rule hMembers hFlat
      have hLength := (TypeExpr.typed_of_ofMembers hPayloads).1
      have hSome := isEmpty_eq_false_of_length_eq
        (hLength.trans (length_constructors settings rule 0 payloads).symm) hNonempty
      refine ⟨.variant (constructors settings rule 0 payloads), ?_⟩
      rw [ofBody, hPayloads]
      simp [alternatives, hSome]
  | sequence members =>
      obtain ⟨hNonempty, hMembers⟩ := hValid
      obtain ⟨items, hItems⟩ := TypeExpr.exists_ofMembers settings rule hMembers hFlat
      have hSome := isEmpty_eq_false_of_length_eq (TypeExpr.typed_of_ofMembers hItems).1 hNonempty
      refine ⟨.tuple items, ?_⟩
      rw [ofBody, hItems]
      simp [product, hSome]
  | repetition kind content =>
      have hContent : (Expr.repetition kind content).containsChoice = false := by
        rw [Expr.children, Expr.membersContainChoice, Bool.or_eq_false_iff] at hFlat
        exact hFlat.1
      obtain ⟨target, hTarget⟩ := TypeExpr.exists_ofExpr settings rule hValid hContent
      refine ⟨.synonym target, ?_⟩
      rw [ofBody_repetition, hTarget]
      rfl
  | symbol name => exact ⟨_, rfl⟩
  | terminal kind value => exact ⟨_, rfl⟩
  | blank => exact ⟨_, rfl⟩

end Shape

/-- The name of a constructor: the rule in upper case, the infix and the number. -/
theorem Settings.constructorName_natCast (settings : Settings) (rule : Text) (index : Nat) :
    settings.constructorName rule index =
      rule.uppercase ++ settings.constructorInfix ++ Text.numeral index := by
  simp [constructorName, Text.concat]

theorem TypeDecl.shaped_of_ofRule {settings : Settings} {rule : Rule} {decl : TypeDecl}
    (h : ofRule settings rule = .ok decl) :
    decl.name = rule.name ∧ Shaped settings.primitiveType rule.body decl.shape := by
  rw [ofRule] at h
  split at h
  · rename_i shape hShape
    rw [← Except.ok.inj h]
    exact ⟨rfl, Shape.shaped_of_ofBody hShape⟩
  · exact absurd h (by simp)

/-! ## The declarations of a grammar -/

namespace Grammar

/-- Only a rule of the grammar is found, and under its own name. -/
theorem mem_of_get {g : Grammar} {name : Text} {rule : Rule} (h : g.get name = .ok rule) :
    rule ∈ g.rules ∧ rule.name = name := by
  rw [get] at h
  split at h
  · rename_i found hFind
    rw [← Except.ok.inj h]
    exact ⟨List.mem_of_find?_eq_some hFind, by simpa using List.find?_some hFind⟩
  · exact absurd h (by simp [refuse])

/-- Declarations bear the names that were asked for, in their order, and each is that of a rule. -/
theorem ofRule_of_typeDecls {settings : Settings} {g : Grammar} {order : List Text}
    {decls : List TypeDecl} (h : g.typeDecls settings order = .ok decls) :
    decls.map TypeDecl.name = order ∧
      ∀ decl ∈ decls, ∃ rule ∈ g.rules, TypeDecl.ofRule settings rule = .ok decl := by
  induction order generalizing decls with
  | nil =>
      rw [← Except.ok.inj h]
      exact ⟨rfl, by simp⟩
  | cons name rest ih =>
      rw [typeDecls] at h
      split at h
      · exact absurd h (by simp)
      · rename_i rule hGet
        split at h
        · exact absurd h (by simp)
        · rename_i first hFirst
          split at h
          · rename_i others hOthers
            obtain ⟨hRule, hName⟩ := mem_of_get hGet
            have hDeclared := (TypeDecl.shaped_of_ofRule hFirst).1
            obtain ⟨hNames, hRules⟩ := ih hOthers
            rw [← Except.ok.inj h]
            refine ⟨by rw [List.map_cons, hNames, hDeclared, hName], ?_⟩
            exact List.forall_mem_cons.2 ⟨⟨rule, hRule, hFirst⟩, hRules⟩
          · exact absurd h (by simp)

/-- Each declaration has the name and the form of its rule. -/
theorem shaped_of_typeDecls {settings : Settings} {g : Grammar} {order : List Text}
    {decls : List TypeDecl} (h : g.typeDecls settings order = .ok decls) :
    decls.map TypeDecl.name = order ∧
      ∀ decl ∈ decls, ∃ rule ∈ g.rules, rule.name = decl.name ∧
        Shaped settings.primitiveType rule.body decl.shape := by
  obtain ⟨hNames, hRules⟩ := ofRule_of_typeDecls h
  refine ⟨hNames, fun decl hDecl => ?_⟩
  obtain ⟨rule, hRule, hDeclared⟩ := hRules decl hDecl
  obtain ⟨hName, hShaped⟩ := TypeDecl.shaped_of_ofRule hDeclared
  exact ⟨rule, hRule, hName.symm, hShaped⟩

/-- The rules of a grammar without nested choices have declarations. -/
theorem exists_typeDecls (settings : Settings) {g : Grammar} (hWell : g.WellFormed)
    (hValid : ∀ rule ∈ g.rules, rule.body.Valid)
    (hFlat : ∀ rule ∈ g.rules, rule.body.hasNestedChoice = false) {order : List Text}
    (hOrder : ∀ name ∈ order, name ∈ g.order) :
    ∃ decls, g.typeDecls settings order = .ok decls := by
  induction order with
  | nil => exact ⟨[], rfl⟩
  | cons name rest ih =>
      obtain ⟨decls, hDecls⟩ := ih fun other hOther => hOrder other (List.mem_cons_of_mem _ hOther)
      obtain ⟨rule, hRule, hName⟩ := mem_order.1 (hOrder name List.mem_cons_self)
      obtain ⟨shape, hShape⟩ := Shape.exists_ofBody settings rule.name
        (hValid rule hRule) (hFlat rule hRule)
      have hGet : g.get name = .ok rule := by
        rw [get, hWell.find?_eq_some_iff.2 ⟨hRule, hName⟩]
      have hDecl : TypeDecl.ofRule settings rule = .ok ⟨rule.name, shape⟩ := by
        rw [TypeDecl.ofRule, hShape]
      refine ⟨⟨rule.name, shape⟩ :: decls, ?_⟩
      rw [typeDecls, hGet]
      simp only
      rw [hDecl]
      simp only
      rw [hDecls]

end Grammar

end TreeTypes

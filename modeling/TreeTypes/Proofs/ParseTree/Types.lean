import TreeTypes.Proofs.Generation.Stages
import TreeTypes.Proofs.Grammar.Built
import TreeTypes.Proofs.ParseTree.Hoisting

/-!
# Types describe the parse trees of their rules

The types of a grammar have exactly the parse trees of its rules for values.
The argument takes two steps. Hoisting keeps the trees of every declared rule.
And in a grammar without nested choices an expression and its type stand for
the same trees, since the one has the form of the other: names for names,
items for members, constructors for alternatives in their order.

Where both are recursive, forms alone do not suffice; the induction is on the
derivation of the tree, in both directions. Its one delicate case is a name.
Type expressions use names for rules and for the primitive type alike, and a
rule that bore the name of the primitive type would give it other values. So
that name must not be the name of a rule, declared or made.

## Main results

* `Declares.derives_iff_hasValue` — without nested choices, trees are values.
* `Grammar.derives_iff_hasValue_types` — for all accepted grammars.
-/

namespace TreeTypes

/-- A block declares the rules of a grammar, each in the form of its body. -/
structure Declares (primitive : Text) (g : Grammar) (decls : List TypeDecl) : Prop where
  exists_decl : ∀ name rule, g.find? name = some rule →
    ∃ shape, ⟨name, shape⟩ ∈ decls ∧ Shaped primitive rule.body shape
  exists_rule : ∀ decl ∈ decls, ∃ rule, g.find? decl.name = some rule ∧
    Shaped primitive rule.body decl.shape
  closed : ∀ name rule, g.find? name = some rule → g.MentionsRules rule.body
  primitive_free : g.find? primitive = none

namespace Declares

variable {primitive : Text} {g : Grammar} {decls : List TypeDecl}

/-- What is neither a choice nor a sequence is declared as a synonym, and has its values from the
type that it stands for. -/
theorem hasValue_of_typed {e : Expr} {tree : ParseTree}
    (hTypes : ∀ type, Typed primitive e type → HasValue primitive decls type tree)
    (hChoice : ∀ members, e ≠ .choice members) (hSequence : ∀ members, e ≠ .sequence members) :
    (∀ type, Typed primitive e type → HasValue primitive decls type tree) ∧
      ∀ name shape, ⟨name, shape⟩ ∈ decls → Shaped primitive e shape →
        HasValue primitive decls (.named name) tree := by
  refine ⟨hTypes, ?_⟩
  intro name shape hDecl hShaped
  cases hShaped with
  | choice _ _ => exact absurd rfl (hChoice _)
  | sequence _ _ => exact absurd rfl (hSequence _)
  | other hTyped => exact .synonym hDecl (hTypes _ hTyped)

/-- A tree of an expression is a value of its type, and a tree of a body is a value of the name
that is declared in its form. -/
theorem hasValue_of_derives (h : Declares primitive g decls) {e : Expr} {tree : ParseTree}
    (hDerives : Derives g e tree) :
    (∀ type, Typed primitive e type → HasValue primitive decls type tree) ∧
      ∀ name shape, ⟨name, shape⟩ ∈ decls → Shaped primitive e shape →
        HasValue primitive decls (.named name) tree := by
  induction hDerives with
  | @symbol rule name tree hFind _ ih =>
      refine hasValue_of_typed ?_ (by simp) (by simp)
      intro type hTyped
      cases hTyped
      obtain ⟨shape, hDecl, hShaped⟩ := h.exists_decl name rule hFind
      exact ih.2 name shape hDecl hShaped
  | terminal kind value =>
      refine hasValue_of_typed ?_ (by simp) (by simp)
      intro type hTyped
      cases hTyped
      exact .primitive
  | blank =>
      refine hasValue_of_typed ?_ (by simp) (by simp)
      intro type hTyped
      cases hTyped
      exact .primitive
  | @repetition kind content trees _ ih =>
      refine hasValue_of_typed ?_ (by simp) (by simp)
      intro type hTyped
      cases hTyped with
      | repetition hContent => exact .list fun tree hTree => (ih tree hTree).1 _ hContent
  | @sequence members trees hLength _ ih =>
      -- A sequence is a tuple wherever it stands, and a product where it is a whole body.
      have hItems : ∀ items : List TypeExpr, members.length = items.length →
          (∀ pair ∈ members.zip items, Typed primitive pair.1 pair.2) →
            ∀ pair ∈ items.zip trees, HasValue primitive decls pair.1 pair.2 := by
        intro items hCount hTyped pair hPair
        obtain ⟨member, hType, hTree⟩ := exists_mem_zip_of_mem_zip_right hCount hPair
        exact (ih (member, pair.2) hTree).1 pair.1 (hTyped _ hType)
      have hTypes : ∀ type, Typed primitive (.sequence members) type →
          HasValue primitive decls type (.tuple trees) := by
        intro type hTyped
        cases hTyped with
        | sequence hCount hMembers =>
            exact .tuple (hCount.symm.trans hLength) (hItems _ hCount hMembers)
      refine ⟨hTypes, ?_⟩
      intro declared shape hDecl hShaped
      cases hShaped with
      | sequence hCount hMembers =>
          exact .product hDecl (hCount.symm.trans hLength) (hItems _ hCount hMembers)
      | other hTyped => exact .synonym hDecl (hTypes _ hTyped)
  | @choice members index member tree hMember _ ih =>
      refine ⟨fun type hTyped => (by cases hTyped), ?_⟩
      intro declared shape hDecl hShaped
      cases hShaped with
      | @choice _ constructors hCount hMembers =>
          obtain ⟨constructor, hConstructor, hPair⟩ := exists_getElem?_mem_zip hCount hMember
          exact .variant hDecl hConstructor (ih.1 _ (hMembers _ hPair))
      | other hTyped => cases hTyped

/-- A name that is declared is the name of a rule, and no expression but the symbol has it for a
type. -/
theorem derives_of_named (h : Declares primitive g decls) {decl : TypeDecl} (hDecl : decl ∈ decls)
    {e : Expr} (hTyped : Typed primitive e (.named decl.name)) {tree : ParseTree}
    (hBody : ∀ rule, g.find? decl.name = some rule → Shaped primitive rule.body decl.shape →
      Derives g rule.body tree) : Derives g e tree := by
  obtain ⟨rule, hFind, hShaped⟩ := h.exists_rule decl hDecl
  have hOther : decl.name ≠ primitive := by
    intro hEq
    rw [hEq, h.primitive_free] at hFind
    exact absurd hFind (by simp)
  generalize hName : decl.name = name at hTyped hFind hOther
  cases hTyped with
  | symbol _ => exact .symbol hFind (hBody rule (hName ▸ hFind) hShaped)
  | terminal kind value => exact absurd rfl hOther
  | blank => exact absurd rfl hOther

/-- A tree for every item makes a tree of the sequence that the items are the types of. -/
theorem derives_sequence {members : List Expr} {items : List TypeExpr} {trees : List ParseTree}
    (hClosed : g.MentionsRules (.sequence members)) (hCount : members.length = items.length)
    (hMembers : ∀ pair ∈ members.zip items, Typed primitive pair.1 pair.2)
    (hLength : items.length = trees.length)
    (hTrees : ∀ pair ∈ items.zip trees, ∀ e, g.MentionsRules e → Typed primitive e pair.1 →
      Derives g e pair.2) : Derives g (.sequence members) (.tuple trees) := by
  refine .sequence (hCount.trans hLength) ?_
  intro pair hPair
  obtain ⟨item, hType, hTree⟩ := exists_mem_zip_of_mem_zip_left hCount hPair
  refine hTrees _ hTree pair.1 ?_ (hMembers _ hType)
  exact Grammar.MentionsRules.of_mem hClosed (List.of_mem_zip hPair).1

/-- A value of the type of an expression is a tree of the expression. -/
theorem derives_of_hasValue (h : Declares primitive g decls) {type : TypeExpr} {tree : ParseTree}
    (hValue : HasValue primitive decls type tree) :
    ∀ e, g.MentionsRules e → Typed primitive e type → Derives g e tree := by
  induction hValue with
  | primitive =>
      intro e hClosed hTyped
      generalize hName : TypeExpr.named primitive = type at hTyped
      cases hTyped with
      | symbol name =>
          obtain ⟨rule, hFind⟩ := hClosed name (List.mem_singleton.2 rfl)
          rw [← TypeExpr.named.inj hName, h.primitive_free] at hFind
          exact absurd hFind (by simp)
      | terminal kind value => exact .terminal kind value
      | blank => exact .blank
      | sequence _ _ => exact absurd hName (by simp)
      | repetition _ => exact absurd hName (by simp)
  | synonym hDecl _ ih =>
      intro e _ hTyped
      refine h.derives_of_named hDecl hTyped fun rule hFind hShaped => ?_
      have hClosed := h.closed _ rule hFind
      generalize rule.body = body at hShaped hClosed
      cases hShaped with
      | other hTarget => exact ih body hClosed hTarget
  | @product name items trees hDecl hLength _ ih =>
      intro e _ hTyped
      refine h.derives_of_named hDecl hTyped fun rule hFind hShaped => ?_
      have hClosed := h.closed _ rule hFind
      generalize rule.body = body at hShaped hClosed
      cases hShaped with
      | @sequence members _ hCount hMembers =>
          exact derives_sequence hClosed hCount hMembers hLength ih
  | @variant name constructors index constructor tree hDecl hConstructor _ ih =>
      intro e _ hTyped
      refine h.derives_of_named hDecl hTyped fun rule hFind hShaped => ?_
      have hClosed := h.closed _ rule hFind
      generalize rule.body = body at hShaped hClosed
      cases hShaped with
      | @choice members _ hCount hMembers =>
          obtain ⟨member, hMember, hPair⟩ := exists_getElem?_mem_zip_right hCount hConstructor
          refine .choice hMember (ih member ?_ (hMembers _ hPair))
          exact Grammar.MentionsRules.of_mem hClosed (List.of_mem_zip hPair).1
  | @tuple items trees hLength _ ih =>
      intro e hClosed hTyped
      cases hTyped with
      | @sequence members _ hCount hMembers =>
          exact derives_sequence hClosed hCount hMembers hLength ih
  | @list item trees _ ih =>
      intro e hClosed hTyped
      cases hTyped with
      | @repetition kind content _ hContent =>
          exact .repetition fun tree hTree => ih tree hTree content hClosed hContent

/-- The trees of a rule are the values of its name. -/
theorem derives_iff_hasValue (h : Declares primitive g decls) {name : Text} {rule : Rule}
    (hFind : g.find? name = some rule) (tree : ParseTree) :
    Derives g (.symbol name) tree ↔ HasValue primitive decls (.named name) tree := by
  constructor
  · intro hDerives
    exact (h.hasValue_of_derives hDerives).1 _ (.symbol name)
  · intro hValue
    refine h.derives_of_hasValue hValue (.symbol name) ?_ (.symbol name)
    intro target hTarget
    rw [List.mem_singleton.1 hTarget]
    exact ⟨rule, hFind⟩

end Declares

namespace Grammar

/-- Declarations with the names of the rules and in their form declare the grammar. -/
theorem WellFormed.declares {primitive : Text} {g : Grammar} {decls : List TypeDecl}
    (hWell : g.WellFormed) (hCoherent : g.Coherent)
    (hNames : ∀ name ∈ g.order, name ∈ decls.map TypeDecl.name)
    (hShapes : ∀ decl ∈ decls, ∃ rule ∈ g.rules, rule.name = decl.name ∧
      Shaped primitive rule.body decl.shape)
    (hPrimitive : primitive ∉ g.order) : Declares primitive g decls := by
  constructor
  · intro name rule hFind
    obtain ⟨hRule, rfl⟩ := hWell.find?_eq_some_iff.1 hFind
    obtain ⟨decl, hDecl, hName⟩ := List.mem_map.1 (hNames rule.name (List.mem_map_of_mem hRule))
    obtain ⟨other, hOther, hSame, hShaped⟩ := hShapes decl hDecl
    rw [hWell.eq_of_name_eq hOther hRule (hSame.trans hName)] at hShaped
    refine ⟨decl.shape, ?_, hShaped⟩
    rw [← hName]
    exact hDecl
  · intro decl hDecl
    obtain ⟨rule, hRule, hName, hShaped⟩ := hShapes decl hDecl
    exact ⟨rule, hWell.find?_eq_some_iff.2 ⟨hRule, hName⟩, hShaped⟩
  · exact (hWell.outlines_hoisted hCoherent {}).closed
  · cases hFind : g.find? primitive with
    | none => rfl
    | some rule =>
        obtain ⟨hRule, hName⟩ := hWell.find?_eq_some_iff.1 hFind
        refine absurd ?_ hPrimitive
        rw [← hName]
        exact List.mem_map_of_mem hRule

/-- Types describe exactly the parse trees of their rules. A grammar with valid bodies whose
references are accepted has types, if it can be hoisted. They declare every rule once, and the
values of a declared name are the trees of the rule, provided that no rule of the hoisted grammar
bears the name of the primitive type. If it cannot be hoisted, there are no types. -/
theorem derives_iff_hasValue_types {name : Text} {rules : List Rule} {root : Option Text}
    {extras : List Text} {g : Grammar} (hBuilt : ofRules name rules root extras = .ok g)
    (hValid : ∀ rule ∈ rules, rule.body.Valid) {refs : References}
    (hRefs : References.ofGrammar g = .ok refs) {settings : Settings}
    (hPrimitive : ∀ hoisted, g.hoist {} = .ok hoisted → settings.primitiveType ∉ hoisted.order) :
    (g.Hoistable → ∃ decls, g.types settings = .ok decls ∧ (decls.map TypeDecl.name).Nodup ∧
      ∀ target ∈ g.order, target ∈ decls.map TypeDecl.name ∧
        ∀ tree, Derives g (.symbol target) tree ↔
          HasValue settings.primitiveType decls (.named target) tree) ∧
    (¬ g.Hoistable → g.types settings = .error .referenceNotUnicode) := by
  refine ⟨fun hHoistable => ?_, fun hNot => (types_eq_error_of_not hNot settings).1⟩
  have hWell := wellFormed_of_ofRules hBuilt
  have hCoherent := (References.ofGrammar_eq_ok_iff hWell).1 ⟨refs, hRefs⟩
  have hFree := hPrimitive _ (hWell.hoist_eq_ok hHoistable {})
  have hResult := hWell.hoisted {}
  have hAccepted := hCoherent.hoisted {}
  obtain ⟨refs', decls, hRefs', hTypes, hOrder, hShapes⟩ :=
    exists_types hWell (valid_of_ofRules hValid hBuilt) hHoistable hAccepted settings
  have hNames : ∀ target ∈ (g.hoisted {}).order, target ∈ decls.map TypeDecl.name := by
    intro target hTarget
    rw [hOrder]
    exact (mem_emissionOrder_iff hResult hRefs').2 hTarget
  have hDeclares := hResult.declares hAccepted hNames hShapes hFree
  refine ⟨decls, hTypes, ?_, ?_⟩
  · rw [hOrder]
    exact nodup_emissionOrder hResult hRefs'
  · intro target hTarget
    refine ⟨hNames target ?_, fun tree => ?_⟩
    · rw [order_hoisted]
      exact List.mem_append_left _ hTarget
    · obtain ⟨rule, hRule, rfl⟩ := mem_order.1 hTarget
      obtain ⟨rule', hFind', -⟩ := hWell.exists_kept {} hRule
      rw [← derives_hoisted_iff hWell hCoherent {} hTarget tree]
      exact hDeclares.derives_iff_hasValue hFind' tree

/-- A tree of the root of `sample`, and therefore a value of its type: one round of the repetition,
with no round of its own inside and the first alternative of the choice. -/
theorem hasValue_types_sample :
    ∃ decls, sample.types {} = .ok decls ∧ HasValue "string" decls (.named "program")
      (.list [.tuple [.list [], .alternative 0 .leaf]]) := by
  have hValid : ∀ rule ∈ sample.rules, rule.body.Valid := by
    have hNames : ("program" : Text) ≠ [] ∧ ("item" : Text) ≠ [] ∧ ("stray" : Text) ≠ [] := by
      decide
    simp [sample, Expr.Valid, Expr.ValidMembers, hNames]
  have hRefs : References.ofGrammar sample = .ok (References.collect sample).graph := by
    decide +kernel
  have hPrimitive : ∀ hoisted, sample.hoist {} = .ok hoisted →
      ({} : Settings).primitiveType ∉ hoisted.order := by
    intro hoisted hHoisted
    rw [(wellFormed_of_ofRules ofRules_sample).hoist_eq_ok hoistable_sample] at hHoisted
    rw [← Except.ok.inj hHoisted]
    decide +kernel
  obtain ⟨decls, hTypes, -, hTrees⟩ :=
    (derives_iff_hasValue_types ofRules_sample hValid hRefs hPrimitive).1 hoistable_sample
  have hFind : sample.find? "program" = some sample.rules[0] := by decide
  have hInner : Derives sample (.symbol "program") (.list []) :=
    .symbol hFind (.repetition fun tree hTree => absurd hTree List.not_mem_nil)
  have hChoice : ∀ others, Derives sample (.choice (.blank :: others)) (.alternative 0 .leaf) :=
    fun others => .choice rfl .blank
  have hTree : Derives sample (.symbol "program")
      (.list [.tuple [.list [], .alternative 0 .leaf]]) := by
    refine .symbol hFind (.repetition fun tree hTree => ?_)
    rw [List.mem_singleton.1 hTree]
    refine .sequence rfl ?_
    intro pair hPair
    rcases List.mem_cons.1 hPair with rfl | hPair
    · exact hInner
    · rw [List.mem_singleton.1 hPair]
      exact hChoice _
  exact ⟨decls, hTypes, ((hTrees "program" (by decide)).2 _).1 hTree⟩

/-- There is a grammar with valid bodies whose references are accepted and whose rule has parse
trees, and which has no types. -/
theorem exists_derives_without_types :
    ∃ g, ofRules "g" [.misnamed] none [] = .ok g ∧ (∀ rule ∈ [Rule.misnamed], rule.body.Valid) ∧
      (∃ refs, References.ofGrammar g = .ok refs) ∧
      (∃ tree, Derives g (.symbol Rule.misnamed.name) tree) ∧
      ∀ decls, g.types {} ≠ .ok decls := by
  refine ⟨misnamed, ofRules_misnamed, valid_misnamed, ?_, ?_,
    fun _ h => not_hoistable_misnamed (hoistable_of_types h)⟩
  · exact (References.ofGrammar_eq_ok_iff (wellFormed_of_ofRules ofRules_misnamed)).2
      coherent_misnamed
  · have hFind : misnamed.find? Rule.misnamed.name = some .misnamed := rfl
    have hChoice : Derives misnamed (.choice [.blank, .blank]) (.alternative 0 .leaf) :=
      .choice rfl .blank
    refine ⟨.tuple [.alternative 0 .leaf], .symbol hFind (.sequence rfl ?_)⟩
    intro pair hPair
    rw [List.mem_singleton.1 hPair]
    exact hChoice

end Grammar

end TreeTypes

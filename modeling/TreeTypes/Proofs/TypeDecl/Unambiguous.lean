import TreeTypes.Proofs.TypeDecl.ReadingBack
import TreeTypes.Proofs.TypeDecl.Typing

/-!
# What a block says about its rules

Declaring rules forgets something on purpose. A terminal or an empty
production becomes the primitive type, as a reference to a rule of this name
would, and the two repetitions become one list type. Nothing else is
forgotten: rules that are declared alike are alike up to that
(`Expr.collapse`), and as the text of a block determines its declarations, it
determines the rules to the same degree. It does so for names that are words
and for rules without nested choices, the ones that have declarations.

One direction is that declaring does not notice the collapse. For the other
one the collapsed body is read off the declared shape.

## Main definitions

* `Expr.collapse` — what declaring keeps of a rule's body.
* `TypeDecl.blockOf` — the block of some rules.
* `Rule.IsPlain`, `Settings.IsPlain`

## Main results

* `TypeDecl.ofRule_congr` — rules that collapse alike are declared alike.
* `TypeDecl.key_eq` — name and collapsed body are read off a declaration.
* `TypeDecl.blockOf_eq_iff` — which rules have the same block.
-/

namespace TreeTypes

/-! ## What declaring forgets -/

namespace Expr

mutual

/-- The expression with a reference to the primitive type for every terminal and empty production,
and with one repetition for the two. -/
def collapse (primitive : Text) : Expr → Expr
  | symbol name => symbol name
  | terminal _ _ => symbol primitive
  | blank => symbol primitive
  | sequence members => sequence (collapseMembers primitive members)
  | choice members => choice (collapseMembers primitive members)
  | repetition _ content => repetition .zeroOrMore (collapse primitive content)

/-- The members, collapsed. -/
def collapseMembers (primitive : Text) : List Expr → List Expr
  | [] => []
  | e :: rest => collapse primitive e :: collapseMembers primitive rest

end

theorem collapseMembers_eq (primitive : Text) (members : List Expr) :
    collapseMembers primitive members = members.map (collapse primitive) := by
  induction members with
  | nil => rfl
  | cons e rest ih => rw [collapseMembers, ih, List.map_cons]

end Expr

namespace TypeExpr

mutual

/-- Declaring does not notice the collapse. -/
theorem ofExpr_collapse (settings : Settings) (rule : Text) (e : Expr) :
    ofExpr settings rule (e.collapse settings.primitiveType) = ofExpr settings rule e := by
  cases e with
  | symbol name => rfl
  | terminal kind value => rfl
  | blank => rfl
  | sequence members => rw [Expr.collapse, ofExpr, ofExpr, ofMembers_collapse settings rule members]
  | choice members => rfl
  | repetition kind content =>
      rw [Expr.collapse, ofExpr, ofExpr, ofExpr_collapse settings rule content]

theorem ofMembers_collapse (settings : Settings) (rule : Text) (members : List Expr) :
    ofMembers settings rule (Expr.collapseMembers settings.primitiveType members) =
      ofMembers settings rule members := by
  cases members with
  | nil => rfl
  | cons e rest =>
      rw [Expr.collapseMembers, ofMembers, ofMembers, ofExpr_collapse settings rule e,
        ofMembers_collapse settings rule rest]

end

end TypeExpr

namespace Shape

theorem ofBody_collapse (settings : Settings) (rule : Text) (body : Expr) :
    ofBody settings rule (body.collapse settings.primitiveType) = ofBody settings rule body := by
  cases body with
  | symbol name => rfl
  | terminal kind value => rfl
  | blank => rfl
  | sequence members => rw [Expr.collapse, ofBody, ofBody, TypeExpr.ofMembers_collapse]
  | choice members => rw [Expr.collapse, ofBody, ofBody, TypeExpr.ofMembers_collapse]
  | repetition kind content =>
      have hType := TypeExpr.ofExpr_collapse settings rule (.repetition kind content)
      rw [Expr.collapse] at hType ⊢
      rw [ofBody_repetition, ofBody_repetition, hType]

end Shape

/-- Rules that collapse alike are declared alike. -/
theorem TypeDecl.ofRule_congr (settings : Settings) {rule other : Rule} (hName : rule.name = other.name)
    (hBody : rule.body.collapse settings.primitiveType =
      other.body.collapse settings.primitiveType) :
    ofRule settings rule = ofRule settings other := by
  rw [ofRule, ofRule, ← Shape.ofBody_collapse, hBody, Shape.ofBody_collapse, hName]

/-! ## Reading the collapsed body off a declaration -/

namespace TypeExpr

mutual

/-- The collapsed expression that has this type. -/
def expr : TypeExpr → Expr
  | named name => .symbol name
  | tuple items => .sequence (exprs items)
  | list item => .repetition .zeroOrMore (expr item)

/-- The collapsed expressions that have these types. -/
def exprs : List TypeExpr → List Expr
  | [] => []
  | item :: rest => expr item :: exprs rest

end

theorem exprs_eq (items : List TypeExpr) : exprs items = items.map expr := by
  induction items with
  | nil => rfl
  | cons item rest ih => rw [exprs, ih, List.map_cons]

end TypeExpr

/-- The collapsed body that has this shape. -/
def Shape.expr : Shape → Expr
  | synonym target => target.expr
  | tuple items => .sequence (items.map TypeExpr.expr)
  | variant constructors => .choice (constructors.map fun c => c.payload.expr)

/-- The collapsed expression is read off its type. -/
theorem Typed.expr_eq {primitive : Text} {e : Expr} {type : TypeExpr}
    (h : Typed primitive e type) : type.expr = e.collapse primitive := by
  induction h with
  | symbol name => rfl
  | terminal kind value => rfl
  | blank => rfl
  | sequence hLength _ ih =>
      rw [TypeExpr.expr, TypeExpr.exprs_eq, Expr.collapse, Expr.collapseMembers_eq,
        map_eq_map_of_mem_zip hLength ih]
  | repetition _ ih => rw [TypeExpr.expr, ih, Expr.collapse]

/-- So is the collapsed body off its shape. -/
theorem Shaped.expr_eq {primitive : Text} {body : Expr} {shape : Shape}
    (h : Shaped primitive body shape) : shape.expr = body.collapse primitive := by
  cases h with
  | choice hLength hMembers =>
      rw [Shape.expr, Expr.collapse, Expr.collapseMembers_eq,
        map_eq_map_of_mem_zip hLength fun pair hPair => (hMembers pair hPair).expr_eq]
  | sequence hLength hMembers =>
      rw [Shape.expr, Expr.collapse, Expr.collapseMembers_eq,
        map_eq_map_of_mem_zip hLength fun pair hPair => (hMembers pair hPair).expr_eq]
  | other hTyped => exact hTyped.expr_eq

/-- Name and collapsed body are read off a declaration. -/
theorem TypeDecl.key_eq {settings : Settings} {rule : Rule} {decl : TypeDecl}
    (h : ofRule settings rule = .ok decl) :
    (decl.name, decl.shape.expr) = (rule.name, rule.body.collapse settings.primitiveType) := by
  obtain ⟨hName, hShaped⟩ := shaped_of_ofRule h
  rw [hName, hShaped.expr_eq]

/-! ## Plain rules have plain declarations -/

/-- What a type expression can be built from is made of words. -/
structure Settings.IsPlain (settings : Settings) : Prop where
  primitiveType : settings.primitiveType.IsWord
  listType : settings.listType.IsWord
  constructorInfix : settings.constructorInfix.IsWord

/-- The rule has a declaration, and its names are words. -/
structure Rule.IsPlain (rule : Rule) : Prop where
  name : rule.name.IsWord
  symbols : ∀ name ∈ rule.body.symbols, name.IsWord
  valid : rule.body.Valid
  flat : rule.body.hasNestedChoice = false

theorem Settings.IsPlain.constructorName {settings : Settings} (h : settings.IsPlain) {rule : Text}
    (hRule : rule.IsWord) (index : Nat) : (settings.constructorName rule index).IsWord := by
  rw [settings.constructorName_natCast]
  exact (hRule.uppercase.append h.constructorInfix).append (Text.isWord_numeral index)

/-- Types of plain members are plain, if each is the type of one. -/
theorem plain_of_mem_zip {members : List Expr} {items : List TypeExpr}
    (hLength : members.length = items.length)
    (h : ∀ pair ∈ members.zip items, pair.1.Valid → (∀ name ∈ pair.1.symbols, name.IsWord) →
      pair.2.Plain)
    (hValid : Expr.ValidMembers members)
    (hSymbols : ∀ name ∈ Expr.symbolsOfMembers members, name.IsWord) :
    ∀ item ∈ items, item.Plain := by
  intro item hItem
  obtain ⟨e, hPair⟩ := exists_mem_zip_right hLength.ge hItem
  have hMem := (List.of_mem_zip hPair).1
  refine h (e, item) hPair (Expr.validMembers_iff.1 hValid e hMem) fun name hName => ?_
  rw [Expr.symbolsOfMembers_eq] at hSymbols
  exact hSymbols name (List.mem_flatMap.2 ⟨e, hMem, hName⟩)

theorem ne_nil_of_length_eq {members : List Expr} {items : List TypeExpr}
    (hLength : members.length = items.length) (hMembers : members ≠ []) : items ≠ [] :=
  List.isEmpty_eq_false_iff.1 (isEmpty_eq_false_of_length_eq hLength hMembers)

/-- The type of an expression whose names are words is plain. -/
theorem Typed.plain {primitive : Text} (hPrimitive : primitive.IsWord) {e : Expr} {type : TypeExpr}
    (h : Typed primitive e type) (hValid : e.Valid) (hSymbols : ∀ name ∈ e.symbols, name.IsWord) :
    type.Plain := by
  induction h with
  | symbol name => exact hSymbols name List.mem_cons_self
  | terminal kind value => exact hPrimitive
  | blank => exact hPrimitive
  | sequence hLength hMembers ih =>
      exact ⟨ne_nil_of_length_eq hLength hValid.1,
        TypeExpr.plainItems_iff.2 (plain_of_mem_zip hLength ih hValid.2 hSymbols)⟩
  | repetition _ ih => exact ih hValid hSymbols

namespace Shape

theorem constructors_plain {settings : Settings} (hSettings : settings.IsPlain) {rule : Text}
    (hRule : rule.IsWord) {payloads : List TypeExpr} (h : ∀ payload ∈ payloads, payload.Plain)
    (index : Nat) : ∀ c ∈ constructors settings rule index payloads, c.Plain := by
  induction payloads generalizing index with
  | nil => simp [constructors]
  | cons payload rest ih =>
      obtain ⟨hFirst, hRest⟩ := List.forall_mem_cons.1 h
      rw [constructors]
      exact List.forall_mem_cons.2
        ⟨⟨hSettings.constructorName hRule index, hFirst⟩, ih hRest (index + 1)⟩

/-- The shape of a body whose names are words is plain. -/
theorem plain_of_ofBody {settings : Settings} (hSettings : settings.IsPlain) {rule : Text}
    (hRule : rule.IsWord) {body : Expr} (hValid : body.Valid)
    (hSymbols : ∀ name ∈ body.symbols, name.IsWord) {shape : Shape}
    (h : ofBody settings rule body = .ok shape) : shape.Plain := by
  have hEach : ∀ {members items}, TypeExpr.ofMembers settings rule members = .ok items →
      Expr.ValidMembers members → (∀ name ∈ Expr.symbolsOfMembers members, name.IsWord) →
      members.length = items.length ∧ ∀ item ∈ items, item.Plain := by
    intro members items hItems hValid hSymbols
    obtain ⟨hLength, hTyped⟩ := TypeExpr.typed_of_ofMembers hItems
    exact ⟨hLength, plain_of_mem_zip hLength
      (fun pair hPair => (hTyped pair hPair).plain hSettings.primitiveType) hValid hSymbols⟩
  cases formed_of_ofBody h with
  | choice hPayloads =>
      exact constructors_plain hSettings hRule (hEach hPayloads hValid.2 hSymbols).2 0
  | sequence hItems =>
      obtain ⟨hLength, hPlain⟩ := hEach hItems hValid.2 hSymbols
      exact ⟨ne_nil_of_length_eq hLength hValid.1, TypeExpr.plainItems_iff.2 hPlain⟩
  | other hBody hTarget =>
      have hTyped := TypeExpr.typed_of_ofExpr hTarget
      refine ⟨hTyped.plain hSettings.primitiveType hValid hSymbols, ?_⟩
      cases hTyped with
      | sequence => exact absurd rfl (hBody _)
      | _ => simp

end Shape

/-! ## Blocks of rules -/

namespace TypeDecl

/-- A plain rule has a declaration, and it is plain. -/
theorem exists_plain_ofRule {settings : Settings} (hSettings : settings.IsPlain) {rule : Rule}
    (hRule : rule.IsPlain) : ∃ decl, ofRule settings rule = .ok decl ∧ decl.Plain := by
  obtain ⟨shape, hShape⟩ := Shape.exists_ofBody settings rule.name hRule.valid hRule.flat
  have hPlain := Shape.plain_of_ofBody hSettings hRule.name hRule.valid hRule.symbols hShape
  exact ⟨⟨rule.name, shape⟩, by rw [ofRule, hShape], hRule.name, hPlain⟩

/-- The block that declares some rules. -/
def blockOf (settings : Settings) (rules : List Rule) : Except Failure Text := do
  renderBlock settings (← rules.mapM (ofRule settings))

/-- Plain rules have declarations, one for each. -/
theorem exists_mapM_ofRule {settings : Settings} (hSettings : settings.IsPlain) {rules : List Rule}
    (hRules : ∀ rule ∈ rules, rule.IsPlain) :
    ∃ decls, rules.mapM (ofRule settings) = .ok decls ∧ (∀ decl ∈ decls, decl.Plain) ∧
      decls.map (fun decl => (decl.name, decl.shape.expr)) =
        rules.map fun rule => (rule.name, rule.body.collapse settings.primitiveType) := by
  induction rules with
  | nil => exact ⟨[], rfl, by simp, rfl⟩
  | cons rule rest ih =>
      obtain ⟨hRule, hRest⟩ := List.forall_mem_cons.1 hRules
      obtain ⟨decl, hDecl, hPlain⟩ := exists_plain_ofRule hSettings hRule
      obtain ⟨decls, hDecls, hPlains, hKeys⟩ := ih hRest
      refine ⟨decl :: decls, ?_, List.forall_mem_cons.2 ⟨hPlain, hPlains⟩, ?_⟩
      · rw [List.mapM_cons, hDecl, hDecls]
        rfl
      · rw [List.map_cons, List.map_cons, key_eq hDecl, hKeys]

/-- Rules that collapse alike one by one have the same block. -/
theorem blockOf_congr (settings : Settings) {first second : List Rule}
    (h : List.Forall₂ (fun rule other => rule.name = other.name ∧
      rule.body.collapse settings.primitiveType = other.body.collapse settings.primitiveType)
      first second) : blockOf settings first = blockOf settings second := by
  have hDecls : first.mapM (ofRule settings) = second.mapM (ofRule settings) := by
    induction h with
    | nil => rfl
    | cons hRule _ ih =>
        rw [List.mapM_cons, List.mapM_cons, ofRule_congr settings hRule.1 hRule.2, ih]
  rw [blockOf, blockOf, hDecls]

/-- Which rules have the same block, among those whose names are words and that have no nested
choices: the same number of rules, one by one with the same name and with bodies that are alike
once terminals and empty productions are references to the primitive type and the two repetitions
are one. -/
theorem blockOf_eq_iff {settings : Settings} (hSettings : settings.IsPlain)
    {first second : List Rule} (hFirst : first ≠ []) (hSecond : second ≠ [])
    (hFirstPlain : ∀ rule ∈ first, rule.IsPlain) (hSecondPlain : ∀ rule ∈ second, rule.IsPlain) :
    ∃ text other, blockOf settings first = .ok text ∧ blockOf settings second = .ok other ∧
      (text = other ↔ List.Forall₂ (fun rule other => rule.name = other.name ∧
        rule.body.collapse settings.primitiveType = other.body.collapse settings.primitiveType)
        first second) := by
  obtain ⟨decls, hDecls, hPlain, hKeys⟩ := exists_mapM_ofRule hSettings hFirstPlain
  obtain ⟨others, hOthers, hOtherPlain, hOtherKeys⟩ := exists_mapM_ofRule hSettings hSecondPlain
  have hBlock : ∀ {rules decls}, rules ≠ [] → rules.mapM (ofRule settings) = .ok decls →
      decls.map (fun decl => (decl.name, decl.shape.expr)) =
        rules.map (fun rule => (rule.name, rule.body.collapse settings.primitiveType)) →
      ∃ text, blockOf settings rules = .ok text ∧ renderBlock settings decls = .ok text := by
    intro rules decls hRules hDecls hKeys
    have hSome : decls ≠ [] := by
      rintro rfl
      exact hRules (List.map_eq_nil_iff.1 hKeys.symm)
    obtain ⟨text, hText⟩ := exists_renderBlock settings hSome
    exact ⟨text, by rw [blockOf, hDecls]; exact hText, hText⟩
  obtain ⟨text, hText, hWritten⟩ := hBlock hFirst hDecls hKeys
  obtain ⟨other, hOther, hOtherWritten⟩ := hBlock hSecond hOthers hOtherKeys
  refine ⟨text, other, hText, hOther, ?_, fun h => ?_⟩
  · rintro rfl
    obtain rfl := renderBlock_inj hSettings.listType hPlain hOtherPlain hWritten hOtherWritten
    have hAlike := hKeys.symm.trans hOtherKeys
    rw [← List.forall₂_eq_eq_eq, List.forall₂_map_left_iff, List.forall₂_map_right_iff] at hAlike
    exact hAlike.imp fun _ _ hKey => Prod.mk.inj hKey
  · rw [blockOf_congr settings h, hOther] at hText
    exact (Except.ok.inj hText).symm

/-- Rules with names that are also words of the notation. The body of the first one is a sequence
with the given member. -/
def keywords (member : Expr) : List Rule :=
  [⟨"list", .sequence [.symbol "and", member], false, false⟩,
    ⟨"and", .choice [.symbol "list", .repetition .oneOrMore (.symbol "type")], false, false⟩,
    ⟨"type", .terminal .literal "(", false, false⟩]

theorem isPlain_keywords {member : Expr} (hValid : member.Valid)
    (hSymbols : ∀ name ∈ member.symbols, name.IsWord) (hFlat : member.containsChoice = false) :
    ∀ rule ∈ keywords member, rule.IsPlain := by
  have hNames : ∀ name ∈ (["list", "and", "type"] : List Text), name.IsWord := by decide
  intro rule hRule
  simp only [keywords, List.mem_cons, List.not_mem_nil, or_false] at hRule
  rcases hRule with rfl | rfl | rfl
  · refine ⟨hNames _ (by simp), ?_, ?_, ?_⟩
    · simpa [Expr.symbols] using ⟨hNames "and" (by simp), hSymbols⟩
    · exact ⟨by simp, (hNames "and" (by simp)).1, hValid, trivial⟩
    · simp [Expr.hasNestedChoice, Expr.children, Expr.containsChoice, hFlat]
  · exact ⟨hNames _ (by simp), by decide,
      ⟨by simp, (hNames "list" (by simp)).1, (hNames "type" (by simp)).1, trivial⟩, by decide⟩
  · exact ⟨hNames _ (by simp), by decide, trivial, by decide⟩

/-- A repetition of terminals is declared like one of references to the primitive type, and not
like a reference to the rule that has the name of the list type. -/
theorem blockOf_eq_iff_keywords :
    Settings.IsPlain {} ∧
      (∀ rule ∈ keywords (.repetition .oneOrMore (.terminal .pattern "[0-9]")), rule.IsPlain) ∧
      (∀ rule ∈ keywords (.repetition .zeroOrMore (.symbol "string")), rule.IsPlain) ∧
      (∀ rule ∈ keywords (.symbol "list"), rule.IsPlain) ∧
      (∃ text, blockOf {} (keywords (.repetition .oneOrMore (.terminal .pattern "[0-9]"))) =
          .ok text ∧
        blockOf {} (keywords (.repetition .zeroOrMore (.symbol "string"))) = .ok text) ∧
      ∃ text other, blockOf {} (keywords (.repetition .zeroOrMore (.symbol "string"))) = .ok text ∧
        blockOf {} (keywords (.symbol "list")) = .ok other ∧ text ≠ other := by
  have hSettings : Settings.IsPlain {} := ⟨by decide, by decide, by decide⟩
  have hString : Text.IsWord "string" := hSettings.primitiveType
  have hList : Text.IsWord "list" := hSettings.listType
  have hTerminals : ∀ rule ∈ keywords (.repetition .oneOrMore (.terminal .pattern "[0-9]")),
      rule.IsPlain := isPlain_keywords trivial (by simp [Expr.symbols]) rfl
  have hReferences : ∀ rule ∈ keywords (.repetition .zeroOrMore (.symbol "string")),
      rule.IsPlain := isPlain_keywords hString.1 (by decide) rfl
  have hName : ∀ rule ∈ keywords (.symbol "list"), rule.IsPlain :=
    isPlain_keywords hList.1 (by decide) rfl
  refine ⟨hSettings, hTerminals, hReferences, hName, ?_, ?_⟩
  · obtain ⟨text, other, hText, hOther, hIff⟩ := blockOf_eq_iff hSettings (by simp [keywords])
      (by simp [keywords]) hTerminals hReferences
    obtain rfl := hIff.2 (.cons ⟨rfl, rfl⟩ (.cons ⟨rfl, rfl⟩ (.cons ⟨rfl, rfl⟩ .nil)))
    exact ⟨text, hText, hOther⟩
  · obtain ⟨text, other, hText, hOther, hIff⟩ := blockOf_eq_iff hSettings (by simp [keywords])
      (by simp [keywords]) hReferences hName
    refine ⟨text, other, hText, hOther, fun hSame => ?_⟩
    cases hIff.1 hSame with
    | cons hRule _ => exact absurd hRule.2 (by decide)

end TypeDecl

end TreeTypes

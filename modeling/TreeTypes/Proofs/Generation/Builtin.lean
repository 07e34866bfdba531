import TreeTypes.Proofs.Generation.Closed
import TreeTypes.Proofs.Generation.Dangling

/-!
# The names of the builtin types

The primitive type and the list type are names from the settings, and the
names of declarations come from the grammar and from hoisting. No stage
compares the two. A grammar may well have a rule with the name of the
primitive type, and then every terminal's type refers to that rule; a
declaration of a rule that is a terminal becomes a synonym for itself.

Whether that happens can be told beforehand. A builtin name is declared exactly
if it is the name of a rule, or one of the names that hoisting makes, which are
known from the grammar alone (`Grammar.Invents`). In all other cases nothing is
captured: what a declaration mentions beside the primitive type are the
references of its rule.

## Main results

* `Grammar.mem_names_types_iff_invents` — the names that are declared.
* `Grammar.builtin_captured_iff` — when a builtin name is captured, and what
  terminals refer to when it is not.
* `Grammar.exists_builtin_captured` — a grammar that captures both.
-/

namespace TreeTypes

namespace Grammar

variable {g : Grammar}

/-- The declared names, without hoisting: those of the rules, and those that hoisting makes. -/
theorem mem_names_types_iff_invents (hWell : g.WellFormed) {settings : Settings}
    {decls : List TypeDecl} (hTypes : g.types settings = .ok decls) {name : Text} :
    name ∈ decls.map TypeDecl.name ↔ name ∈ g.order ∨ g.Invents name := by
  rw [mem_names_types_iff hWell hTypes, order_hoisted, List.mem_append,
    mem_invented_iff_invents hWell]

/-- If the primitive type is not declared, then the declared names that a declaration mentions are
the references of its rule. -/
theorem filter_mentions_types (hWell : g.WellFormed) {settings : Settings} {decls : List TypeDecl}
    (hTypes : g.types settings = .ok decls)
    (hPrimitive : settings.primitiveType ∉ decls.map TypeDecl.name) {rule : Rule}
    (hRule : rule ∈ (g.hoisted {}).rules) :
    (rule.body.typeNames settings.primitiveType).filter (· ∈ decls.map TypeDecl.name) =
      rule.body.symbols := by
  refine Expr.filter_typeNames (decide_eq_false hPrimitive) fun target hTarget => ?_
  have hDeclared :=
    (coherent_of_types hWell hTypes).mem_declared_of_mem_symbols hRule hTarget
  exact decide_eq_true ((mem_names_types_iff hWell hTypes).2
    ((hWell.hoisted {}).mem_declared_names.1 hDeclared).1)

/-- When a builtin name is captured. A declaration bears the name of the primitive type exactly if
a rule does or hoisting makes that name, and the same is true of the list type. A declaration
mentions the symbols of its hoisted rule and the primitive type for every leaf; if no declaration
bears the name of the primitive type, then the declarations that it refers to are those of the
symbols, so a terminal's type refers to none. -/
theorem builtin_captured_iff {name : Text} {rules : List Rule} {root : Option Text}
    {extras : List Text} {g : Grammar} (hBuilt : ofRules name rules root extras = .ok g)
    {settings : Settings} {decls : List TypeDecl} (hTypes : g.types settings = .ok decls) :
    (settings.primitiveType ∈ decls.map TypeDecl.name ↔
      settings.primitiveType ∈ g.order ∨ g.Invents settings.primitiveType) ∧
    (settings.listType ∈ decls.map TypeDecl.name ↔
      settings.listType ∈ g.order ∨ g.Invents settings.listType) ∧
    ∃ hoisted, g.hoist {} = .ok hoisted ∧ ∀ decl ∈ decls, ∃ rule ∈ hoisted.rules,
      rule.name = decl.name ∧ decl.mentions = rule.body.typeNames settings.primitiveType ∧
        (settings.primitiveType ∉ decls.map TypeDecl.name →
          decl.mentions.filter (· ∈ decls.map TypeDecl.name) = rule.body.symbols) := by
  have hWell := wellFormed_of_ofRules hBuilt
  refine ⟨mem_names_types_iff_invents hWell hTypes, mem_names_types_iff_invents hWell hTypes,
    g.hoisted {}, hWell.hoist_eq_ok (hoistable_of_types hTypes) {}, ?_⟩
  intro decl hDecl
  obtain ⟨rule, hRule, hName, hMentions⟩ := mentions_of_types hWell hTypes hDecl
  refine ⟨rule, hRule, hName, hMentions, fun hPrimitive => ?_⟩
  rw [hMentions]
  exact filter_mentions_types hWell hTypes hPrimitive hRule

/-- A name that hoisting makes captures the primitive type like any other. -/
example : typeBlock { primitiveType := "r_0" }
    { name := "g", root := "r", extras := [],
      rules := [{ name := "r", body := .repetition .zeroOrMore (.choice [.blank, .blank]) }] } =
    .ok "type r = list(r_0)\nand r_0 = \n | R_0_CTOR_0 (r_0)\n | R_0_CTOR_1 (r_0)\n;\n" := by
  decide +kernel

/-! ## Builtin names that are captured -/

/-- A repetition and a terminal, in rules with the names of the builtin types. -/
def captured : Grammar where
  name := "g"
  root := "list"
  rules := [
    { name := "list", body := .repetition .zeroOrMore (.symbol "string") },
    { name := "string", body := .terminal .literal "x" }]
  extras := []

theorem ofRules_captured : ofRules "g" captured.rules none [] = .ok captured := by decide

theorem exists_types_captured : ∃ decls, captured.types {} = .ok decls := by
  have hWell := wellFormed_of_ofRules ofRules_captured
  have hRefs : References.ofGrammar captured = .ok (References.collect captured).graph := by
    decide +kernel
  have hCoherent := (References.ofGrammar_eq_ok_iff hWell).1 ⟨_, hRefs⟩
  have hValid : ∀ rule ∈ captured.rules, rule.body.Valid := by
    have hName : ("string" : Text) ≠ [] := by decide
    simp [captured, Expr.Valid, hName]
  obtain ⟨-, decls, -, hTypes, -⟩ := exists_types hWell hValid (by decide) (hCoherent.hoisted {}) {}
  exact ⟨decls, hTypes⟩

/-- Both builtin names are declared for `captured`: they are names of rules. -/
theorem builtin_captured_iff_captured :
    ∃ decls, captured.types {} = .ok decls ∧
      ("string" : Text) ∈ decls.map TypeDecl.name ∧ ("list" : Text) ∈ decls.map TypeDecl.name := by
  obtain ⟨decls, hTypes⟩ := exists_types_captured
  obtain ⟨hPrimitive, hList, -⟩ := builtin_captured_iff ofRules_captured hTypes
  exact ⟨decls, hTypes, hPrimitive.2 (Or.inl (by decide)), hList.2 (Or.inl (by decide))⟩

/-- It is not so that the builtin names stay free. The settings of an empty table are accepted, and
with them the block of `captured` has a terminal and declares the primitive type, as a synonym for
itself, and it has a repetition and declares the list type. -/
theorem exists_builtin_captured :
    ofRules "g" captured.rules none [] = .ok captured ∧ Settings.ofTable [] = .ok {} ∧
      (∃ decls, captured.types {} = .ok decls ∧
        (∃ rule ∈ captured.rules, ∃ kind value, rule.body = .terminal kind value) ∧
        ({} : Settings).primitiveType ∈ decls.map TypeDecl.name ∧
        (∃ rule ∈ captured.rules, ∃ kind content, rule.body = .repetition kind content) ∧
        ({} : Settings).listType ∈ decls.map TypeDecl.name) ∧
      captured.typeBlock {} = .ok "type list = list(string)\nand string = string\n;\n" := by
  obtain ⟨decls, hTypes⟩ := exists_types_captured
  have hWell := wellFormed_of_ofRules ofRules_captured
  refine ⟨ofRules_captured, by decide +kernel, ⟨decls, hTypes, ?_, ?_, ?_, ?_⟩, by decide +kernel⟩
  · exact ⟨_, List.mem_cons_of_mem _ List.mem_cons_self, .literal, "x", rfl⟩
  · exact (mem_names_types_iff_invents hWell hTypes).2 (Or.inl (by decide))
  · exact ⟨_, List.mem_cons_self, .zeroOrMore, .symbol "string", rfl⟩
  · exact (mem_names_types_iff_invents hWell hTypes).2 (Or.inl (by decide))

end Grammar

end TreeTypes

import TreeTypes.Proofs.Generation.Stages
import TreeTypes.Proofs.Grammar.Built

/-!
# References to rules that do not exist

A reference to no rule should end in a failure and leave nothing written. The
check of the references comes after hoisting, though, and hoisting avoids the
names of the rules only, not those that the bodies mention. A rule that it
makes can therefore bear the very name that a body mentions in error, and from
then on the reference looks like any other.

When that happens can be told from the grammar as it was given. The names that
hoisting makes are known in advance (`Grammar.Invents`): for each rule the
first numbered names that are not declared, one for each nested choice. The
failure stays away exactly if every reference to no rule hits one of them and
nothing else is wrong (`Grammar.Passes`); in all other cases it comes, unless
hoisting itself fails before the references are checked, which is a failure
too, though not one that is reported.

## Main results

* `Grammar.mem_invented_iff_invents` — the names that hoisting makes.
* `Grammar.types_of_dangling` — exactly when a dangling reference is reported.
* `Grammar.exists_dangling_unreported` — a reference that goes through unnoticed.
-/

namespace TreeTypes

open Hoisting

namespace Grammar

variable {g : Grammar}

/-- Hoisting makes a rule of this name: a numbered name of a rule that is not declared, with fewer
free numbers before it than the rule has nested choices. -/
def Invents (g : Grammar) (name : Text) : Prop :=
  ∃ owner ∈ g.declared, ∃ k, name = numberedName owner.name k ∧ name ∉ g.order ∧
    ((List.range k).countP fun j => numberedName owner.name j ∉ g.order) <
      owner.body.nestedChoiceCount

/-- The names that hoisting makes, without hoisting. -/
theorem mem_invented_iff_invents (hWell : g.WellFormed) {name : Text} :
    name ∈ g.invented {} ↔ g.Invents name := by
  rw [mem_invented_iff hWell]
  have hCount : ∀ owner, ({} : NameCounters).count owner = 0 := fun _ => rfl
  simp only [hCount, Nat.zero_le, true_and, Invents, NameSupply.freeBelow]

/-- Nothing in the grammar is reported: what rules mention are rules or names that hoisting makes,
and extras are like terminals. -/
structure Passes (g : Grammar) : Prop where
  mentioned : ∀ rule ∈ g.declared, ∀ target ∈ rule.body.symbols,
    target ∈ g.declared.map Rule.name ∨ g.Invents target
  extra_symbols : ∀ rule ∈ g.rules, rule.isExtra = true → rule.body.symbols = []
  extra_flat : ∀ rule ∈ g.rules, rule.isExtra = true → rule.body.hasNestedChoice = false

theorem coherent_hoisted_iff_passes (hWell : g.WellFormed) :
    (g.hoisted {}).Coherent ↔ g.Passes := by
  rw [coherent_hoisted_iff]
  simp only [mem_invented_iff_invents hWell]
  constructor
  · rintro ⟨hMentioned, hExtras⟩
    exact ⟨hMentioned, fun rule hRule hExtra => (hExtras rule hRule hExtra).1,
      fun rule hRule hExtra => (hExtras rule hRule hExtra).2⟩
  · intro hPasses
    refine ⟨hPasses.mentioned, fun rule hRule hExtra => ⟨?_, ?_⟩⟩
    · exact hPasses.extra_symbols rule hRule hExtra
    · exact hPasses.extra_flat rule hRule hExtra

/-- What becomes of a grammar in which a rule mentions a name that is no rule. If it can be hoisted,
types and block fail with an unknown reference or an unsupported construct, unless everything
passes; then there are types and a block, and the name that is no rule is declared in them. If it
cannot, they fail without a diagnostic. -/
theorem types_of_dangling (hBuilt : g.Built) {rule : Rule} (hRule : rule ∈ g.declared)
    {target : Text} (hMentioned : target ∈ rule.body.symbols) (hDangling : target ∉ g.order)
    (settings : Settings) :
    (g.Hoistable → ¬ g.Passes →
      ∃ d : Diagnostic, (d.kind = .unknownReference ∨ d.kind = .unsupported) ∧
        g.types settings = .error (.diagnosed d) ∧
        g.typeBlock settings = .error (.diagnosed d)) ∧
    (g.Hoistable → g.Passes → ∃ decls text, g.types settings = .ok decls ∧
      g.typeBlock settings = .ok text ∧ target ∈ decls.map TypeDecl.name) ∧
    (¬ g.Hoistable → g.types settings = .error .referenceNotUnicode ∧
      g.typeBlock settings = .error .referenceNotUnicode) := by
  have hWell := hBuilt.wellFormed
  refine ⟨?_, ?_, fun hNot => types_eq_error_of_not hNot settings⟩
  · intro hHoistable hReported
    exact types_eq_error hWell hHoistable
      (fun hAccepted => hReported ((coherent_hoisted_iff_passes hWell).1 hAccepted)) settings
  · intro hHoistable hPasses
    have hAccepted := (coherent_hoisted_iff_passes hWell).2 hPasses
    obtain ⟨refs, decls, hRefs, hTypes, hNames, -⟩ :=
      exists_types hWell hBuilt.valid hHoistable hAccepted settings
    -- What is mentioned is a rule of the hoisted grammar, and every one of them is declared.
    have hDeclared : target ∈ decls.map TypeDecl.name := by
      rw [hNames, mem_emissionOrder_iff (hWell.hoisted {}) hRefs, order_hoisted]
      rcases hPasses.mentioned rule hRule target hMentioned with hOld | hNew
      · obtain ⟨other, hOther, rfl⟩ := List.mem_map.1 hOld
        exact absurd (List.mem_map_of_mem (mem_declared.1 hOther).1) hDangling
      · exact List.mem_append_right _ ((mem_invented_iff_invents hWell).2 hNew)
    have hSome : decls ≠ [] := by
      rintro rfl
      exact absurd hDeclared List.not_mem_nil
    obtain ⟨text, hText⟩ := exists_typeBlock hTypes hSome
    exact ⟨decls, text, hTypes, hText, hDeclared⟩

/-! ## A reference that goes through -/

/-- A rule with one nested choice that mentions the name which this choice is going to get. -/
def hidden : Grammar where
  name := "g"
  root := "r"
  rules := [{ name := "r", body := .sequence [.choice [.blank, .blank], .symbol "r_0"] }]
  extras := []

theorem built_hidden : hidden.Built := by
  have hRules : ofRules "g" hidden.rules none [] = .ok hidden := by decide
  refine Built.ofRules ?_ hRules
  intro rule hRule
  rw [List.mem_singleton.1 hRule]
  have hName : ("r_0" : Text) ≠ [] := by decide
  simp [Expr.Valid, Expr.ValidMembers, hName]

theorem passes_hidden : hidden.Passes := by
  constructor
  · intro rule hRule target hTarget
    rw [List.mem_singleton.1 hRule] at hTarget
    rw [List.mem_singleton.1 hTarget]
    exact Or.inr ⟨_, List.mem_cons_self, 0, by decide, by decide, by decide⟩
  · intro rule hRule hExtra
    rw [List.mem_singleton.1 hRule] at hExtra
    exact absurd hExtra (by decide)
  · intro rule hRule hExtra
    rw [List.mem_singleton.1 hRule] at hExtra
    exact absurd hExtra (by decide)

/-- The reference of `hidden` to no rule is declared like any other. -/
theorem types_of_dangling_hidden :
    hidden.Built ∧ ("r_0" : Text) ∉ hidden.order ∧ hidden.Passes ∧
      ∃ decls text, hidden.types {} = .ok decls ∧ hidden.typeBlock {} = .ok text ∧
        ("r_0" : Text) ∈ decls.map TypeDecl.name :=
  ⟨built_hidden, by decide, passes_hidden,
    (types_of_dangling built_hidden List.mem_cons_self (by decide) (by decide) {}).2.1
      (by decide) passes_hidden⟩

/-- It is not so that every reference to no rule is reported. The block of `hidden` is written,
with the second member of the rule taken for the alternation in its first. -/
theorem exists_dangling_unreported :
    ∃ g : Grammar, g.Built ∧
      (∃ rule ∈ g.declared, ∃ target ∈ rule.body.symbols, target ∉ g.order) ∧
      g.typeBlock {} = .ok
        "type r = (r_0, r_0)\nand r_0 = \n | R_0_CTOR_0 (string)\n | R_0_CTOR_1 (string)\n;\n" :=
  ⟨hidden, built_hidden, ⟨_, List.mem_cons_self, "r_0", by decide, by decide⟩, by decide +kernel⟩

end Grammar

end TreeTypes

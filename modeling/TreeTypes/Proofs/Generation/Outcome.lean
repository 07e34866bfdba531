import TreeTypes.Proofs.Generation.Stages
import TreeTypes.Proofs.Grammar.Built

/-!
# How generation can end

Five stages stand between a grammar and its block, and each of them has
failures of its own. Hoisting puts a grammar together again, and could find a
name twice or no rule at all. Declaring a rule could come upon a choice below
the top, upon a sequence without members, or upon a name that is no rule. And
there could be nothing to write.

None of this happens. The check of the references refuses grammars, for one of
two reasons. Apart from it there is one failure that nobody intended: hoisting
refers to the rules that it makes, and a reference does not bear every name
that a rule may have. So the outcome of the whole is known from the names of
the rules with nested choices and from the check of the references
(`Grammar.typeBlock_eq_error_iff`), and the sort of every failure with it.

The run that keeps records has the same outcome. What is proved of
`Grammar.types` and `Grammar.typeBlock` is therefore true of the program.

## Main results

* `Generation.outcome_ofDocument` — records change nothing about the outcome.
* `Grammar.typeBlock_eq_error_iff` — after hoisting only the check of the
  references fails.
* `Grammar.typeBlock_outcome` — when there is a block, and why there is none.
* `Grammar.exists_typeBlock_undefined` — a coherent grammar without a block.
-/

namespace TreeTypes

/-! ## Runs with records -/

/-- The declarations are the same with and without records. -/
theorem Grammar.outcome_typesTraced (settings : Settings) (g : Grammar) :
    (g.typesTraced settings).outcome = g.types settings := by
  unfold typesTraced types hoist
  cases hHoist : (g.hoistTraced {}).outcome with
  | error failure => exact Traced.outcome_bind_of_error hHoist _
  | ok hoisted =>
      rw [Traced.outcome_bind_of_ok hHoist, Traced.outcome_report_bind]
      simp only [typesOfHoisted]
      cases hRefs : References.ofGrammar hoisted with
      | error failure => exact Traced.outcome_bind_of_error rfl _
      | ok refs =>
          rw [Traced.outcome_bind_of_ok (a := refs) rfl, Traced.outcome_report_bind]
          simp only
          cases hDecls : hoisted.typeDecls settings (hoisted.emissionOrder refs) with
          | error failure => exact Traced.outcome_bind_of_error rfl _
          | ok decls => rw [Traced.outcome_bind_of_ok (a := decls) rfl]; rfl

/-- A document that gives a grammar ends like the grammar. -/
theorem Generation.outcome_ofDocument [Nesting] {settings : Settings} {source : Option FilePath}
    {document : Datum} {g : Grammar}
    (h : (Grammar.ofDocument settings source document).outcome = .ok g) :
    (ofDocument settings source document).outcome = g.typeBlock settings := by
  unfold ofDocument Grammar.typeBlock
  rw [Traced.outcome_bind_of_ok h, ← Grammar.outcome_typesTraced]
  cases hTypes : (g.typesTraced settings).outcome with
  | error failure => exact Traced.outcome_bind_of_error hTypes _
  | ok decls =>
      rw [Traced.outcome_bind_of_ok hTypes]
      rfl

/-! ## The one stage that fails -/

namespace Grammar

variable {g : Grammar}

/-- An accepted grammar has a block: there is a root, so there is something to write. -/
theorem exists_typeBlock_of_coherent (hWell : g.WellFormed)
    (hValid : ∀ rule ∈ g.rules, rule.body.Valid) (hHoistable : g.Hoistable)
    (hAccepted : (g.hoisted {}).Coherent) (settings : Settings) :
    ∃ text, g.typeBlock settings = .ok text := by
  obtain ⟨refs, decls, hRefs, hTypes, hNames, -⟩ :=
    exists_types hWell hValid hHoistable hAccepted settings
  apply exists_typeBlock hTypes
  rintro rfl
  have hRoot : g.root ∈ (g.hoisted {}).emissionOrder refs :=
    (mem_emissionOrder_iff (hWell.hoisted {}) hRefs).2 (hWell.hoisted {}).root_mem
  rw [← hNames] at hRoot
  exact absurd hRoot List.not_mem_nil

/-- Of a grammar that can be hoisted the failures are those of the check of the references. -/
theorem typeBlock_eq_error_iff (hWell : g.WellFormed)
    (hValid : ∀ rule ∈ g.rules, rule.body.Valid) (hHoistable : g.Hoistable) (settings : Settings)
    {failure : Failure} :
    g.typeBlock settings = .error failure ↔
      References.ofGrammar (g.hoisted {}) = .error failure := by
  cases hRefs : References.ofGrammar (g.hoisted {}) with
  | ok refs =>
      have hAccepted := (References.ofGrammar_eq_ok_iff (hWell.hoisted {})).1 ⟨refs, hRefs⟩
      obtain ⟨text, hText⟩ :=
        exists_typeBlock_of_coherent hWell hValid hHoistable hAccepted settings
      rw [hText]
      simp
  | error found =>
      have hBlock : g.typeBlock settings = .error found := by
        rw [typeBlock, types_eq_typesOfHoisted hWell hHoistable, typesOfHoisted, hRefs]
      rw [hBlock, Except.error.injEq, Except.error.injEq]

/-- How generation ends, for a grammar made of rules with valid bodies. If the names of the rules
with nested choices are made of characters, hoisting succeeds, and a failure of the whole is a
failure of the check of the references on the hoisted grammar: no other stage fails. It is an
unknown reference or an unsupported construct, and if declared rules mention declared rules and
extras are like terminals, there is a block. If one of those names holds a surrogate, hoisting fails
without a diagnostic, and with it the whole. -/
theorem typeBlock_outcome {name : Text} {rules : List Rule} {root : Option Text}
    {extras : List Text} {g : Grammar} (hBuilt : ofRules name rules root extras = .ok g)
    (hValid : ∀ rule ∈ rules, rule.body.Valid) (settings : Settings) :
    (g.Hoistable →
      (g.Coherent → ∃ text, g.typeBlock settings = .ok text) ∧
      (∀ failure, g.typeBlock settings = .error failure →
        ∃ d, failure = .diagnosed d ∧ (d.kind = .unknownReference ∨ d.kind = .unsupported)) ∧
      ∃ hoisted, g.hoist {} = .ok hoisted ∧ ∀ failure,
        g.typeBlock settings = .error failure ↔ References.ofGrammar hoisted = .error failure) ∧
    (¬ g.Hoistable → g.hoist {} = .error .referenceNotUnicode ∧
      g.typeBlock settings = .error .referenceNotUnicode) := by
  have hWell := wellFormed_of_ofRules hBuilt
  have hBodies := valid_of_ofRules hValid hBuilt
  constructor
  · intro hHoistable
    have hFailures : ∀ failure, g.typeBlock settings = .error failure ↔
        References.ofGrammar (g.hoisted {}) = .error failure :=
      fun failure => typeBlock_eq_error_iff hWell hBodies hHoistable settings
    refine ⟨fun hCoherent => ?_, fun failure hFailure => ?_, g.hoisted {},
      hWell.hoist_eq_ok hHoistable {}, hFailures⟩
    · exact exists_typeBlock_of_coherent hWell hBodies hHoistable (hCoherent.hoisted {}) settings
    · exact References.kind_of_ofGrammar ((hFailures failure).1 hFailure)
  · intro hNot
    exact ⟨hoist_eq_error hNot {}, (types_eq_error_of_not hNot settings).2⟩

theorem typeBlock_outcome_sample :
    ofRules "sample" sample.rules none ["comment"] = .ok sample ∧
      (∀ rule ∈ sample.rules, rule.body.Valid) ∧ sample.Coherent ∧
      ∃ text, sample.typeBlock {} = .ok text :=
  ⟨ofRules_sample, valid_sample, coherent_sample,
    ((typeBlock_outcome ofRules_sample valid_sample {}).1 hoistable_sample).1 coherent_sample⟩

/-- There is a grammar made of rules with valid bodies that is coherent and has no block, and not
because of an unknown reference or an unsupported construct. -/
theorem exists_typeBlock_undefined :
    ∃ g, ofRules "g" [.misnamed] none [] = .ok g ∧ (∀ rule ∈ [Rule.misnamed], rule.body.Valid) ∧
      g.Coherent ∧ g.typeBlock {} = .error .referenceNotUnicode :=
  ⟨misnamed, ofRules_misnamed, valid_misnamed, coherent_misnamed,
    (types_eq_error_of_not not_hoistable_misnamed {}).2⟩

end Grammar

end TreeTypes

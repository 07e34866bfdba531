import TreeTypes.Generation
import TreeTypes.Proofs.Emission.Traversal
import TreeTypes.Proofs.Hoisting.Acceptance
import TreeTypes.Proofs.Hoisting.NormalForm
import TreeTypes.Proofs.TypeDecl.Typing

/-!
# The stages together

Of the stages that lead from a grammar to its types, only one refuses a
well-formed grammar with valid bodies by intention: the check of the
references. Before it hoisting fails if it cannot refer to a rule that it
makes. After it nothing fails: the order names rules only, each once, and
every body has a type. So whether there are types is a question about the
hoisted grammar, whether it is coherent, once there is one; and all answers
are spelled out here.

## Main results

* `Grammar.types_eq_error_of_not` — the end where hoisting fails.
* `Grammar.shaped_of_types` — what declarations are like where there are any.
* `Grammar.exists_types` — the declarations of an accepted grammar.
* `Grammar.types_eq_error` — the failure of a grammar that is not accepted.
-/

namespace TreeTypes

open Hoisting

namespace Grammar

variable {g : Grammar}

/-- Where hoisting fails, there are neither types nor a block, whatever else is wrong. -/
theorem types_eq_error_of_not (h : ¬ g.Hoistable) (settings : Settings) :
    g.types settings = .error .referenceNotUnicode ∧
      g.typeBlock settings = .error .referenceNotUnicode := by
  have hTypes : g.types settings = .error .referenceNotUnicode := by
    rw [types, hoist_eq_error h]
  exact ⟨hTypes, by rw [typeBlock, hTypes]⟩

theorem hoistable_of_types {settings : Settings} {decls : List TypeDecl}
    (h : g.types settings = .ok decls) : g.Hoistable := by
  by_contra hNot
  rw [(types_eq_error_of_not hNot settings).1] at h
  exact absurd h (by simp)

theorem types_eq_typesOfHoisted (hWell : g.WellFormed) (hHoistable : g.Hoistable)
    (settings : Settings) : g.types settings = (g.hoisted {}).typesOfHoisted settings := by
  rw [types, hWell.hoist_eq_ok hHoistable]

/-- Hoisting keeps bodies valid. -/
theorem valid_hoisted (hValid : ∀ rule ∈ g.rules, rule.body.Valid) (counters : NameCounters) :
    ∀ rule' ∈ (g.hoisted counters).rules, rule'.body.Valid := by
  intro rule' hRule
  rcases mem_rules_hoisted.1 hRule with hDeclared | hMade
  · obtain ⟨rule, hOriginal, hKept⟩ := exists_kept_of_mem_declared hDeclared
    cases hExtra : rule.isExtra with
    | true =>
        rw [hKept.extra hExtra]
        exact hValid rule hOriginal
    | false => exact (hKept.own hExtra).2.2 (hValid rule hOriginal)
  · exact (isMade_of_mem_synthetic hMade).2.2 hValid

/-- After hoisting no choice is nested, but for extras, which are checked. -/
theorem flat_hoisted {counters : NameCounters} (hAccepted : (g.hoisted counters).Coherent) :
    ∀ rule' ∈ (g.hoisted counters).rules, rule'.body.hasNestedChoice = false := by
  intro rule' hRule
  cases hFlag : rule'.isExtra with
  | true => exact hAccepted.extra_flat rule' hRule hFlag
  | false => exact g.flat_of_hoisted counters rule' hRule hFlag

/-- Declarations come of a hoisted grammar that is accepted: one for each of its rules, in the
order of the references, each in the form of its rule. -/
theorem shaped_of_types (hWell : g.WellFormed) {settings : Settings} {decls : List TypeDecl}
    (h : g.types settings = .ok decls) :
    ∃ refs, References.ofGrammar (g.hoisted {}) = .ok refs ∧
      decls.map TypeDecl.name = (g.hoisted {}).emissionOrder refs ∧
      ∀ decl ∈ decls, ∃ rule ∈ (g.hoisted {}).rules, rule.name = decl.name ∧
        Shaped settings.primitiveType rule.body decl.shape := by
  rw [types_eq_typesOfHoisted hWell (hoistable_of_types h), typesOfHoisted] at h
  split at h
  · rename_i refs hRefs
    exact ⟨refs, hRefs, shaped_of_typeDecls h⟩
  · exact absurd h (by simp)

/-- An accepted grammar has declarations. -/
theorem exists_types (hWell : g.WellFormed) (hValid : ∀ rule ∈ g.rules, rule.body.Valid)
    (hHoistable : g.Hoistable) (hAccepted : (g.hoisted {}).Coherent) (settings : Settings) :
    ∃ refs decls, References.ofGrammar (g.hoisted {}) = .ok refs ∧
      g.types settings = .ok decls ∧
      decls.map TypeDecl.name = (g.hoisted {}).emissionOrder refs ∧
      ∀ decl ∈ decls, ∃ rule ∈ (g.hoisted {}).rules, rule.name = decl.name ∧
        Shaped settings.primitiveType rule.body decl.shape := by
  have hHoisted := hWell.hoisted {}
  obtain ⟨refs, hRefs⟩ := (References.ofGrammar_eq_ok_iff hHoisted).2 hAccepted
  obtain ⟨decls, hDecls⟩ := exists_typeDecls settings hHoisted (valid_hoisted hValid {})
    (flat_hoisted hAccepted) fun name hName => (mem_emissionOrder_iff hHoisted hRefs).1 hName
  refine ⟨refs, decls, hRefs, ?_, shaped_of_typeDecls hDecls⟩
  rw [types_eq_typesOfHoisted hWell hHoistable, typesOfHoisted, hRefs]
  exact hDecls

/-- A grammar that is not accepted has neither types nor a block, for one of two reasons. -/
theorem types_eq_error (hWell : g.WellFormed) (hHoistable : g.Hoistable)
    (hRefused : ¬ (g.hoisted {}).Coherent) (settings : Settings) :
    ∃ d : Diagnostic, (d.kind = .unknownReference ∨ d.kind = .unsupported) ∧
      g.types settings = .error (.diagnosed d) ∧
      g.typeBlock settings = .error (.diagnosed d) := by
  cases hRefs : References.ofGrammar (g.hoisted {}) with
  | ok refs =>
      have hAccepted := (References.ofGrammar_eq_ok_iff (hWell.hoisted {})).1 ⟨refs, hRefs⟩
      exact absurd hAccepted hRefused
  | error failure =>
      obtain ⟨d, rfl, hKind⟩ := References.kind_of_ofGrammar hRefs
      have hTypes : g.types settings = .error (.diagnosed d) := by
        rw [types_eq_typesOfHoisted hWell hHoistable, typesOfHoisted, hRefs]
      refine ⟨d, hKind, hTypes, ?_⟩
      rw [typeBlock, hTypes]

/-- Declarations of which there is at least one are written. -/
theorem exists_typeBlock {settings : Settings} {decls : List TypeDecl}
    (hTypes : g.types settings = .ok decls) (hSome : decls ≠ []) :
    ∃ text, g.typeBlock settings = .ok text := by
  rw [typeBlock, hTypes]
  cases decls with
  | nil => exact absurd rfl hSome
  | cons first rest => exact ⟨_, rfl⟩

end Grammar

end TreeTypes

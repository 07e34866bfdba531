import TreeTypes.Proofs.Hoisting.Success
import TreeTypes.Proofs.References

/-!
# When the hoisted grammar is accepted

References are checked after hoisting, on a grammar that has more rules than
the one that was given. What the check says about the given grammar is worked
out here: everything that its rules mention has to be a declared rule *or one
of the names that hoisting made*, and its extras have to be like terminals.

Without the second possibility this would be the check of the given grammar. A
coherent grammar stays coherent, therefore, but the converse fails. And a
coherent grammar need not be one that can be hoisted.

## Main results

* `Grammar.coherent_hoisted_iff` — what the check means for the given grammar.
* `Grammar.Coherent.hoisted` — coherent grammars are accepted after hoisting.
-/

namespace TreeTypes

open Hoisting

namespace Grammar

variable {g : Grammar}

/-- The hoisted grammar is accepted if the rules mention declared rules and names made, and the
extras are like terminals. -/
theorem coherent_hoisted_iff (g : Grammar) (counters : NameCounters) :
    (g.hoisted counters).Coherent ↔
      (∀ rule ∈ g.declared, ∀ target ∈ rule.body.symbols,
        target ∈ g.declared.map Rule.name ∨ target ∈ g.invented counters) ∧
      ∀ rule ∈ g.rules, rule.isExtra = true →
        rule.body.symbols = [] ∧ rule.body.hasNestedChoice = false := by
  have hNames : ∀ name, name ∈ (g.hoisted counters).declared.map Rule.name ↔
      name ∈ g.declared.map Rule.name ∨ name ∈ g.invented counters := by
    intro name
    rw [names_declared_hoisted]
    exact List.mem_append
  constructor
  · intro hCoherent
    constructor
    · intro rule hRule target hTarget
      have hMentioned : target ∈ mentions (g.hoisted counters).declared :=
        mem_mentions_hoisted_iff.2 (Or.inl (mem_mentions.2 ⟨rule, hRule, hTarget⟩))
      obtain ⟨rule', hRule', hTarget'⟩ := mem_mentions.1 hMentioned
      exact (hNames target).1 (hCoherent.closed rule' hRule' target hTarget')
    · intro rule hRule hExtra
      obtain ⟨rule', hDeclared, hKept⟩ := exists_kept_of_mem_rules counters hRule
      have hSame := hKept.extra hExtra
      rw [hSame] at hDeclared
      have hMem := mem_rules_hoisted.2 (Or.inl hDeclared)
      exact ⟨hCoherent.extra_symbols rule hMem hExtra, hCoherent.extra_flat rule hMem hExtra⟩
  · rintro ⟨hClosed, hExtras⟩
    have hPlain : ∀ rule' ∈ (g.hoisted counters).rules, rule'.isExtra = true →
        rule'.body.symbols = [] ∧ rule'.body.hasNestedChoice = false := by
      intro rule' hRule hExtra
      rcases mem_rules_hoisted.1 hRule with hDeclared | hMade
      · obtain ⟨rule, hOriginal, hKept⟩ := exists_kept_of_mem_declared hDeclared
        have hFlag : rule.isExtra = true := by
          rw [← hKept.isExtra_eq]
          exact hExtra
        rw [hKept.extra hFlag]
        exact hExtras rule hOriginal hFlag
      · have hFlag := (isMade_of_mem_synthetic hMade).1.isExtra
        exact absurd (hExtra.symm.trans hFlag) (by simp)
    constructor
    · intro rule' hRule' target hTarget
      have hMentioned := mem_mentions_hoisted_iff.1 (mem_mentions.2 ⟨rule', hRule', hTarget⟩)
      apply (hNames target).2
      rcases hMentioned with hOld | hNew
      · obtain ⟨rule, hRule, hTarget⟩ := mem_mentions.1 hOld
        exact hClosed rule hRule target hTarget
      · exact Or.inr hNew
    · exact fun rule' hRule hExtra => (hPlain rule' hRule hExtra).1
    · exact fun rule' hRule hExtra => (hPlain rule' hRule hExtra).2

/-- A coherent grammar stays coherent. -/
theorem Coherent.hoisted (hCoherent : g.Coherent) (counters : NameCounters) :
    (g.hoisted counters).Coherent := by
  refine (g.coherent_hoisted_iff counters).2 ⟨?_, ?_⟩
  · intro rule hRule target hTarget
    exact Or.inl (hCoherent.closed rule hRule target hTarget)
  · intro rule hRule hExtra
    exact ⟨hCoherent.extra_symbols rule hRule hExtra, hCoherent.extra_flat rule hRule hExtra⟩

/-- In a coherent grammar only rules are mentioned. -/
theorem Coherent.mentions_subset (hCoherent : g.Coherent) {name : Text}
    (h : name ∈ mentions g.declared) : name ∈ g.order := by
  obtain ⟨rule, hRule, hName⟩ := mem_mentions.1 h
  obtain ⟨target, hTarget, rfl⟩ := List.mem_map.1 (hCoherent.closed rule hRule name hName)
  exact List.mem_map_of_mem (mem_declared.1 hTarget).1

theorem coherent_misnamed : misnamed.Coherent :=
  ⟨by decide, by decide, by decide⟩

end Grammar

end TreeTypes

import TreeTypes.Proofs.Emission.Traversal
import TreeTypes.Proofs.Hoisting.Outcome

/-!
# What the root leads to

The traversal answers two questions at once, what the root leads to and in
which order it is written. The first one has an answer that knows nothing of
stacks: a rule is reached if there is a chain of mentions from the root to it.
`Grammar.Reaches` says so, and the traversal finds exactly those rules.

A root that is an extra leads to no declared rule, because an extra mentions
nothing; the traversal does not even begin then.

In a hoisted grammar the rules made stay with their owner: what is left of the
owner mentions the first of them, and each later one is mentioned by one of
those before. So where the owner is reached, all of them are.

## Main results

* `Grammar.mem_reached_iff` — the traversal finds what is reachable.
* `Grammar.mem_reached_of_mem_offspring` — a reached rule brings along all
  that was made of it.
-/

namespace TreeTypes

open Hoisting

namespace Grammar

/-- A chain of mentions leads from the root to a name. -/
inductive Reaches (g : Grammar) : Text → Prop
  | root : Reaches g g.root
  | mention {rule : Rule} {target : Text} (hRule : rule ∈ g.rules) (h : Reaches g rule.name)
      (hTarget : target ∈ rule.body.symbols) : Reaches g target

variable {g : Grammar} {refs : References}

/-- What a reached rule mentions is reached. -/
theorem mem_reached_of_mem_symbols (hWell : g.WellFormed)
    (hRefs : References.ofGrammar g = .ok refs) {rule : Rule} (hRule : rule ∈ g.declared)
    (h : rule.name ∈ g.reached refs) {target : Text} (hTarget : target ∈ rule.body.symbols) :
    target ∈ g.reached refs := by
  refine refs.mem_visit_of_mem_successors h List.not_mem_nil ?_
  rw [References.successors_of_ofGrammar hWell hRefs, Text.mem_distinct,
    mentioned_eq_symbols hWell hRule]
  exact hTarget

/-- The traversal finds exactly the declared rules that the root leads to. -/
theorem mem_reached_iff (hWell : g.WellFormed) (hRefs : References.ofGrammar g = .ok refs)
    {name : Text} :
    name ∈ g.reached refs ↔ name ∈ g.declared.map Rule.name ∧ g.Reaches name := by
  have hCoherent := (References.ofGrammar_eq_ok_iff hWell).1 ⟨refs, hRefs⟩
  constructor
  · intro hReached
    refine ⟨mem_reached_imp hWell hRefs hReached, ?_⟩
    refine refs.forall_mem_visit (P := g.Reaches) ?_ ?_ (by simp) name hReached
    · intro source hSource target hTarget
      rw [References.successors_of_ofGrammar hWell hRefs, Text.mem_distinct] at hTarget
      obtain ⟨rule, hRule, rfl, hSymbol⟩ := exists_of_mem_mentioned hWell hTarget
      exact .mention (mem_declared.1 hRule).1 hSource hSymbol
    · intro root hRoot
      rw [List.mem_ite_nil_right] at hRoot
      rw [List.mem_singleton.1 hRoot.2]
      exact .root
  · rintro ⟨hDeclared, hReaches⟩
    induction hReaches with
    | root =>
        have hNode := (References.mem_nodes_of_ofGrammar hWell hRefs g.root).2 hDeclared
        rw [reached, if_pos hNode]
        exact refs.mem_visit_of_mem_stack List.mem_cons_self []
    | @mention rule target hRule _ hTarget ih =>
        have hMem : rule ∈ g.declared := hCoherent.mem_declared_of_mentions hRule hTarget
        exact mem_reached_of_mem_symbols hWell hRefs hMem (ih (List.mem_map_of_mem hMem)) hTarget

/-! ## Rules made stay with their owner -/

/-- Where the owner is reached, all rules that were made of it are. -/
theorem mem_reached_of_mem_offspring (hWell : g.WellFormed) {counters : NameCounters}
    (hRefs : References.ofGrammar (g.hoisted counters) = .ok refs) {rule : Rule}
    (hRule : rule ∈ g.declared) (h : rule.name ∈ (g.hoisted counters).reached refs) :
    ∀ name ∈ names (offspring rule (g.supply counters)),
      name ∈ (g.hoisted counters).reached refs := by
  have hHoisted := hWell.hoisted counters
  refine forall_mem_names_drained (P := (· ∈ (g.hoisted counters).reached refs)) _ _ _ ?_ ?_
  · intro made hMade hReached target hTarget
    exact mem_reached_of_mem_symbols hHoisted hRefs
      (offspring_mem_declared_hoisted hWell hRule hMade) hReached hTarget
  · intro name hName
    obtain ⟨added, hAdded, rfl⟩ := List.mem_map.1 hName
    exact mem_reached_of_mem_symbols hHoisted hRefs (left_mem_declared_hoisted hWell counters hRule)
      h (rule.name_mem_symbols_hoisted rule.name (g.supply counters) hAdded)

end Grammar

end TreeTypes

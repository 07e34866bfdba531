import TreeTypes.Proofs.Expr.Places
import TreeTypes.Proofs.References

/-!
# What the graph of a grammar is

A rule becomes a node when it is visited or when an earlier rule mentions it,
whichever comes first, and the walk keeps one list for both. So the graph is
described here as a whole, without the walk: its nodes are the declared rules
in the order in which their names are first met, and its edges are the symbols
in their bodies, at any depth. There is nothing else in it, and no edge leads
out of it.

That a symbol stands somewhere in a body is said with positions
(`Expr.part?`), so that the edges do not rest on the list that the walk goes
through.

## Main definitions

* `References.IsGraphOf` — a graph is the graph of a grammar.

## Main results

* `References.isGraphOf_ofGrammar` — the walk makes this graph.
-/

namespace TreeTypes

namespace References

/-- The nodes of a graph are the declared rules of a grammar and its edges the symbols in their
bodies, both in the order of their first mention. -/
structure IsGraphOf (refs : References) (g : Grammar) : Prop where
  /-- Rules are gone through in declaration order, and a name comes before the names in its body. -/
  nodes_eq : refs.nodes =
    Text.distinct (g.declared.flatMap fun rule => rule.name :: rule.body.symbols)
  nodes_nodup : refs.nodes.Nodup
  mem_nodes_iff : ∀ name, name ∈ refs.nodes ↔ ∃ rule ∈ g.declared, rule.name = name
  successors_eq : ∀ rule ∈ g.declared,
    refs.successors rule.name = Text.distinct rule.body.symbols
  /-- What is no declared rule has no successors. -/
  successors_other : ∀ name, (∀ rule ∈ g.declared, rule.name ≠ name) → refs.successors name = []
  hasEdge_iff : ∀ source target, refs.hasEdge source target = true ↔
    ∃ rule ∈ g.declared, rule.name = source ∧
      ∃ position, rule.body.part? position = some (.symbol target)
  /-- Edges lead to nodes, and never to an extra. -/
  closed : ∀ source, ∀ target ∈ refs.successors source,
    target ∈ refs.nodes ∧ target ∉ g.extras

variable {g : Grammar} {refs : References}

/-- What is mentioned under a name stands in the body of the declared rule of that name. -/
theorem mem_mentioned_iff (hWell : g.WellFormed) {source target : Text} :
    target ∈ g.mentioned source ↔
      ∃ rule ∈ g.declared, rule.name = source ∧ target ∈ rule.body.symbols := by
  constructor
  · exact Grammar.exists_of_mem_mentioned hWell
  · rintro ⟨rule, hRule, rfl, hTarget⟩
    rw [Grammar.mentioned_eq_symbols hWell hRule]
    exact hTarget

/-- The graph that is made of a grammar is its graph. -/
theorem isGraphOf_ofGrammar {name : Text} {rules : List Rule} {root : Option Text}
    {extras : List Text} (hBuilt : Grammar.ofRules name rules root extras = .ok g)
    (hRefs : ofGrammar g = .ok refs) : refs.IsGraphOf g := by
  have hWell := Grammar.wellFormed_of_ofRules hBuilt
  have hCoherent := (ofGrammar_eq_ok_iff hWell).1 ⟨refs, hRefs⟩
  have hSuccessors := successors_of_ofGrammar hWell hRefs
  have hNodes := mem_nodes_of_ofGrammar hWell hRefs
  -- No two rules share a name, so the successors of a name come from one body.
  have hTargets : ∀ source target, target ∈ refs.successors source ↔
      ∃ rule ∈ g.declared, rule.name = source ∧ target ∈ rule.body.symbols := by
    intro source target
    rw [hSuccessors, Text.mem_distinct, mem_mentioned_iff hWell]
  constructor
  · exact nodes_of_ofGrammar hRefs
  · rw [nodes_of_ofGrammar hRefs]
    exact Text.nodup_distinct _
  · exact fun name => (hNodes name).trans List.mem_map
  · intro rule hRule
    rw [hSuccessors, Grammar.mentioned_eq_symbols hWell hRule]
  · intro name hNone
    rw [List.eq_nil_iff_forall_not_mem]
    intro target hTarget
    obtain ⟨rule, hRule, hName, -⟩ := (hTargets name target).1 hTarget
    exact hNone rule hRule hName
  · intro source target
    simp only [← Expr.mem_symbols_iff]
    exact decide_eq_true_iff.trans (hTargets source target)
  · intro source target hTarget
    obtain ⟨rule, hRule, -, hSymbol⟩ := (hTargets source target).1 hTarget
    have hDeclared := hCoherent.closed rule hRule target hSymbol
    exact ⟨(hNodes target).2 hDeclared, (hWell.mem_declared_names.1 hDeclared).2⟩

/-- The second rule becomes a node when the first mentions it, and the extra is none. The edge
between the two comes from a choice within a choice. -/
theorem isGraphOf_ofGrammar_sample :
    ∃ refs, ofGrammar Grammar.sample = .ok refs ∧ refs.IsGraphOf Grammar.sample ∧
      refs.nodes = ["program", "item", "stray"] ∧
      refs.successors "item" = ["program", "item"] ∧ refs.hasEdge "program" "item" = true := by
  have hGraph := isGraphOf_ofGrammar Grammar.ofRules_sample Grammar.ofGrammar_sample
  refine ⟨_, Grammar.ofGrammar_sample, hGraph, hGraph.nodes_eq, ?_, ?_⟩
  · exact hGraph.successors_eq Grammar.sample.rules[1] (by decide)
  · exact (hGraph.hasEdge_iff "program" "item").2
      ⟨Grammar.sample.rules[0], by decide, rfl, [0, 1, 1, 1, 0], rfl⟩

end References

end TreeTypes

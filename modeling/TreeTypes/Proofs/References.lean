import TreeTypes.Proofs.References.Growing

/-!
# The references of a grammar

The graph is grown edge by edge, and the walk stops at the first violation.
What comes of it can be said without the walk. It stops with the first
violation of the first rule that has one (`collect_stopped`). If it does not
stop, every declared rule has added itself and an edge for each name in its
body, and nothing else was added (`eq_addAll_of_ofGrammar`). So the successors
of a rule are the names in its body, each at its first mention
(`successors_of_ofGrammar`), and the nodes are the rules that are no extras
(`mem_nodes_of_ofGrammar`).

A grammar is accepted exactly if it is **coherent**: declared rules mention
declared rules, and extras are like terminals. That is the form in which later
stages use the check.

## Main results

* `References.ofGrammar_eq_ok_iff` — when there is a graph.
* `References.kind_of_ofGrammar` — the sort of the failure when there is none.
* `References.successors_of_ofGrammar`, `References.mem_nodes_of_ofGrammar`
-/

namespace TreeTypes

/-- The cause does not depend on whether there is a location. -/
theorem Diagnostic.cause_undefinedRule (name : Text) (rule : Option Text)
    (source : Option FilePath) :
    (Diagnostic.undefinedRule name rule source).cause = .undefinedRule name := by
  unfold Diagnostic.undefinedRule
  split <;> rfl

namespace References

/-! ## Where the walk stops -/

/-- The first violation of a rule, if it has one. -/
def ruleViolation (g : Grammar) (rule : Rule) : Option Failure :=
  if rule.isExtra then extraViolation rule
  else rule.body.symbols.findSome? (violation g rule.name)

theorem collectSymbols_stopped (g : Grammar) (rule : Text) (symbols : List Text)
    (refs : References) :
    (collectSymbols g rule symbols refs).stopped = symbols.findSome? (violation g rule) := by
  induction symbols generalizing refs with
  | nil => rfl
  | cons target rest ih =>
      rw [collectSymbols, List.findSome?_cons]
      cases violation g rule target with
      | some failure => rfl
      | none => exact ih _

theorem collectRules_stopped (g : Grammar) (rules : List Rule) (refs : References) :
    (collectRules g rules refs).stopped = rules.findSome? (ruleViolation g) := by
  induction rules generalizing refs with
  | nil => rfl
  | cons rule rest ih =>
      rw [collectRules, List.findSome?_cons, ruleViolation]
      by_cases hExtra : rule.isExtra = true
      · rw [if_pos hExtra, if_pos hExtra]
        cases extraViolation rule with
        | some failure => rfl
        | none => exact ih _
      · rw [if_neg hExtra, if_neg hExtra]
        simp only
        rw [collectSymbols_stopped]
        cases rule.body.symbols.findSome? (violation g rule.name) with
        | some failure => rfl
        | none => exact ih _

/-- The walk stops at the first violation of the first rule that has one. -/
theorem collect_stopped (g : Grammar) :
    (collect g).stopped = g.rules.findSome? (ruleViolation g) :=
  collectRules_stopped g g.rules {}

theorem ofGrammar_eq_error_iff {g : Grammar} {failure : Failure} :
    ofGrammar g = .error failure ↔ g.rules.findSome? (ruleViolation g) = some failure := by
  rw [ofGrammar, ← collect_stopped]
  cases (collect g).stopped <;> simp

theorem violation_eq_some_iff {g : Grammar} {rule target : Text} {failure : Failure} :
    violation g rule target = some failure ↔
      (target ∉ g.order ∧ failure = .diagnosed (.undefinedRule target (some rule) none)) ∨
      (target ∈ g.order ∧ target ∈ g.extras ∧ failure = .diagnosed
        (.unsupported extraReference (some rule) none (.referenceToExtra target))) := by
  rw [violation, ← Grammar.has_eq_true_iff]
  cases g.has target with
  | false => simp [eq_comm (a := failure)]
  | true => by_cases hExtra : target ∈ g.extras <;> simp [hExtra, eq_comm (a := failure)]

theorem extraViolation_eq_some_iff {rule : Rule} {failure : Failure} :
    extraViolation rule = some failure ↔
      (∃ target later, rule.body.symbols = target :: later ∧ failure = .diagnosed
        (.unsupported extraReference (some rule.name) none (.referenceFromExtra target))) ∨
      (rule.body.symbols = [] ∧ rule.body.hasNestedChoice = true ∧ failure = .diagnosed
        (.unsupported Tag.choice.text (some rule.name) none .choiceInExtra)) := by
  rw [extraViolation]
  cases rule.body.symbols with
  | nil => cases rule.body.hasNestedChoice <;> simp [eq_comm (a := failure)]
  | cons target later => simp [eq_comm (a := failure)]

/-- The walk finds nothing but unknown references and constructs that are not modelled. -/
theorem kind_of_ofGrammar {g : Grammar} {failure : Failure}
    (h : ofGrammar g = .error failure) :
    ∃ d, failure = .diagnosed d ∧ (d.kind = .unknownReference ∨ d.kind = .unsupported) := by
  obtain ⟨rule, -, hViolation⟩ := List.exists_of_findSome?_eq_some (ofGrammar_eq_error_iff.1 h)
  rw [ruleViolation] at hViolation
  split at hViolation
  · rcases extraViolation_eq_some_iff.1 hViolation with ⟨target, later, -, rfl⟩ | ⟨-, -, rfl⟩
    · exact ⟨_, rfl, Or.inr rfl⟩
    · exact ⟨_, rfl, Or.inr rfl⟩
  · obtain ⟨target, -, hTarget⟩ := List.exists_of_findSome?_eq_some hViolation
    rcases violation_eq_some_iff.1 hTarget with ⟨-, rfl⟩ | ⟨-, -, rfl⟩
    · exact ⟨_, rfl, Or.inl (congrArg Cause.kind (Diagnostic.cause_undefinedRule target _ _))⟩
    · exact ⟨_, rfl, Or.inr rfl⟩

/-! ## Coherent grammars -/

theorem violation_eq_none_iff {g : Grammar} {rule target : Text} :
    violation g rule target = none ↔ target ∈ g.order ∧ target ∉ g.extras := by
  rw [violation, ← Grammar.has_eq_true_iff]
  cases g.has target <;> simp

theorem extraViolation_eq_none_iff {rule : Rule} :
    extraViolation rule = none ↔
      rule.body.symbols = [] ∧ rule.body.hasNestedChoice = false := by
  rw [extraViolation]
  cases rule.body.symbols with
  | nil => simp
  | cons target rest => simp

end References

namespace Grammar

/-- Declared rules mention declared rules, and extras are like terminals. -/
structure Coherent (g : Grammar) : Prop where
  closed : ∀ rule ∈ g.declared, ∀ target ∈ rule.body.symbols,
    target ∈ g.declared.map Rule.name
  extra_symbols : ∀ rule ∈ g.rules, rule.isExtra = true → rule.body.symbols = []
  extra_flat : ∀ rule ∈ g.rules, rule.isExtra = true → rule.body.hasNestedChoice = false

/-- Extras mention nothing, so a rule that mentions something is declared. -/
theorem Coherent.mem_declared_of_mentions {g : Grammar} (h : g.Coherent) {rule : Rule}
    (hRule : rule ∈ g.rules) {target : Text} (hTarget : target ∈ rule.body.symbols) :
    rule ∈ g.declared := by
  refine mem_declared.2 ⟨hRule, ?_⟩
  cases hExtra : rule.isExtra with
  | false => rfl
  | true =>
      rw [h.extra_symbols rule hRule hExtra] at hTarget
      exact absurd hTarget List.not_mem_nil

/-- What any rule mentions is a declared rule. -/
theorem Coherent.mem_declared_of_mem_symbols {g : Grammar} (h : g.Coherent) {rule : Rule}
    (hRule : rule ∈ g.rules) {target : Text} (hTarget : target ∈ rule.body.symbols) :
    target ∈ g.declared.map Rule.name :=
  h.closed rule (h.mem_declared_of_mentions hRule hTarget) target hTarget

theorem WellFormed.mem_declared_names {g : Grammar} (h : g.WellFormed) {name : Text} :
    name ∈ g.declared.map Rule.name ↔ name ∈ g.order ∧ name ∉ g.extras := by
  rw [List.mem_map, mem_order]
  constructor
  · rintro ⟨rule, hRule, rfl⟩
    obtain ⟨hRule, hOwn⟩ := mem_declared.1 hRule
    refine ⟨⟨rule, hRule, rfl⟩, ?_⟩
    intro hExtra
    exact absurd ((h.isExtra_iff rule hRule).2 hExtra) (by simp [hOwn])
  · rintro ⟨⟨rule, hRule, rfl⟩, hOwn⟩
    refine ⟨rule, mem_declared.2 ⟨hRule, ?_⟩, rfl⟩
    cases hExtra : rule.isExtra with
    | true => exact absurd ((h.isExtra_iff rule hRule).1 hExtra) hOwn
    | false => rfl

end Grammar

namespace References

/-- There is a graph exactly for coherent grammars. -/
theorem ofGrammar_eq_ok_iff {g : Grammar} (h : g.WellFormed) :
    (∃ refs, ofGrammar g = .ok refs) ↔ g.Coherent := by
  have hNone : (∃ refs, ofGrammar g = .ok refs) ↔
      ∀ rule ∈ g.rules, ruleViolation g rule = none := by
    rw [ofGrammar, ← List.findSome?_eq_none_iff, ← collect_stopped]
    cases (collect g).stopped <;> simp
  rw [hNone]
  constructor
  · intro hAll
    constructor
    · intro rule hRule target hTarget
      obtain ⟨hRule, hOwn⟩ := Grammar.mem_declared.1 hRule
      have hViolation := hAll rule hRule
      rw [ruleViolation, if_neg (by simp [hOwn]), List.findSome?_eq_none_iff] at hViolation
      exact h.mem_declared_names.2 (violation_eq_none_iff.1 (hViolation target hTarget))
    · intro rule hRule hExtra
      have hViolation := hAll rule hRule
      rw [ruleViolation, if_pos hExtra] at hViolation
      exact (extraViolation_eq_none_iff.1 hViolation).1
    · intro rule hRule hExtra
      have hViolation := hAll rule hRule
      rw [ruleViolation, if_pos hExtra] at hViolation
      exact (extraViolation_eq_none_iff.1 hViolation).2
  · intro hCoherent rule hRule
    rw [ruleViolation]
    split
    · rename_i hExtra
      exact extraViolation_eq_none_iff.2
        ⟨hCoherent.extra_symbols rule hRule hExtra, hCoherent.extra_flat rule hRule hExtra⟩
    · rename_i hOwn
      rw [List.findSome?_eq_none_iff]
      intro target hTarget
      exact violation_eq_none_iff.2 (h.mem_declared_names.1 (hCoherent.closed rule
        (Grammar.mem_declared.2 ⟨hRule, by simpa using hOwn⟩) target hTarget))

/-! ## What the graph holds -/

/-- A walk that does not stop passes every name that it comes to. -/
theorem collectSymbols_cons {g : Grammar} {rule target : Text} {rest : List Text}
    {refs : References} (h : (collectSymbols g rule (target :: rest) refs).stopped = none) :
    collectSymbols g rule (target :: rest) refs =
      collectSymbols g rule rest (refs.addEdge rule target) := by
  rw [collectSymbols] at h ⊢
  cases hViolation : violation g rule target with
  | none => rfl
  | some failure =>
      rw [hViolation] at h
      exact absurd h (by simp)

/-- An extra leaves no trace in the graph. -/
theorem collectRules_cons_extra {g : Grammar} {rule : Rule} {rest : List Rule} {refs : References}
    (hExtra : rule.isExtra = true) (h : (collectRules g (rule :: rest) refs).stopped = none) :
    collectRules g (rule :: rest) refs = collectRules g rest refs := by
  rw [collectRules, if_pos hExtra] at h ⊢
  cases hViolation : extraViolation rule with
  | none => rfl
  | some failure =>
      rw [hViolation] at h
      exact absurd h (by simp)

/-- A declared rule leaves its own name and then the names in its body. -/
theorem collectRules_cons_own {g : Grammar} {rule : Rule} {rest : List Rule} {refs : References}
    (hOwn : rule.isExtra = false) (h : (collectRules g (rule :: rest) refs).stopped = none) :
    (collectSymbols g rule.name rule.body.symbols (refs.addNode rule.name)).stopped = none ∧
      collectRules g (rule :: rest) refs = collectRules g rest
        (collectSymbols g rule.name rule.body.symbols (refs.addNode rule.name)).graph := by
  rw [collectRules, if_neg (by simp [hOwn])] at h ⊢
  simp only at h ⊢
  cases hStopped : (collectSymbols g rule.name rule.body.symbols
      (refs.addNode rule.name)).stopped with
  | none => exact ⟨rfl, rfl⟩
  | some failure =>
      rw [hStopped] at h
      exact absurd h (by simp)

/-- What a declared rule adds: itself, and an edge for every name in its body. -/
def additionsOf (rule : Rule) : List Addition :=
  .node rule.name :: rule.body.symbols.map (.edge rule.name)

theorem collectSymbols_graph {g : Grammar} {rule : Text} {symbols : List Text}
    {refs : References} (h : (collectSymbols g rule symbols refs).stopped = none) :
    (collectSymbols g rule symbols refs).graph = refs.addAll (symbols.map (.edge rule)) := by
  induction symbols generalizing refs with
  | nil => rfl
  | cons target rest ih =>
      have hCons := collectSymbols_cons h
      rw [hCons] at h ⊢
      exact ih h

/-- A walk that does not stop grows its graph by what the declared rules add. -/
theorem collectRules_graph {g : Grammar} {rules : List Rule} {refs : References}
    (h : (collectRules g rules refs).stopped = none) :
    (collectRules g rules refs).graph =
      refs.addAll ((rules.filter (!·.isExtra)).flatMap additionsOf) := by
  induction rules generalizing refs with
  | nil => rfl
  | cons rule rest ih =>
      cases hExtra : rule.isExtra with
      | true =>
          have hCons := collectRules_cons_extra hExtra h
          rw [hCons] at h ⊢
          rw [List.filter_cons_of_neg (by simp [hExtra])]
          exact ih h
      | false =>
          obtain ⟨hStopped, hCons⟩ := collectRules_cons_own hExtra h
          rw [hCons] at h ⊢
          rw [ih h, collectSymbols_graph hStopped, List.filter_cons_of_pos (by simp [hExtra]),
            List.flatMap_cons, addAll_append]
          rfl

/-- A declared rule adds edges from its own name only. -/
theorem filterMap_additionsOf (rule : Rule) (name : Text) :
    (additionsOf rule).filterMap (Addition.target? name) =
      if rule.name = name then rule.body.symbols else [] := by
  have hEdges : rule.body.symbols.filterMap (Addition.target? name ∘ Addition.edge rule.name) =
      if rule.name = name then rule.body.symbols else [] := by
    by_cases hName : rule.name = name
    · rw [if_pos hName]
      refine (List.filterMap_congr fun target _ => ?_).trans List.filterMap_some
      exact if_pos hName
    · rw [if_neg hName, List.filterMap_eq_nil_iff]
      exact fun target _ => if_neg hName
  rw [additionsOf, List.filterMap_cons_none rfl, List.filterMap_map, hEdges]

theorem filterMap_additions (rules : List Rule) (name : Text) :
    (rules.flatMap additionsOf).filterMap (Addition.target? name) =
      (rules.filter (·.name = name)).flatMap (·.body.symbols) := by
  induction rules with
  | nil => rfl
  | cons rule rest ih =>
      rw [List.flatMap_cons, List.filterMap_append, filterMap_additionsOf, ih]
      by_cases hName : rule.name = name
      · rw [if_pos hName, List.filter_cons_of_pos (by simpa using hName), List.flatMap_cons]
      · rw [if_neg hName, List.filter_cons_of_neg (by simpa using hName), List.nil_append]

/-- Edges from a name that was mentioned before mention nothing but their targets. -/
theorem distinct_edges {rule : Text} {seen : List Text} (h : rule ∈ seen)
    (symbols : List Text) :
    Text.distinct (seen ++ (symbols.map (Addition.edge rule)).flatMap Addition.names) =
      Text.distinct (seen ++ symbols) := by
  induction symbols generalizing seen with
  | nil => rfl
  | cons target rest ih =>
      have hAgain : Text.distinct (seen ++ [rule] ++ [target]) =
          Text.distinct (seen ++ [target]) := by
        refine Text.distinct_append_congr ?_ [target]
        rw [Text.distinct_append_singleton, if_pos h]
      have hRest := ih (List.mem_append_left [target] h)
      rw [List.append_cons seen target rest, ← hRest, ← Text.distinct_append_congr hAgain]
      simp [Addition.names]

theorem distinct_additionsOf (rules : List Rule) (seen : List Text) :
    Text.distinct (seen ++ (rules.flatMap additionsOf).flatMap Addition.names) =
      Text.distinct (seen ++ rules.flatMap fun rule => rule.name :: rule.body.symbols) := by
  induction rules generalizing seen with
  | nil => rfl
  | cons rule rest ih =>
      have hOwn : Text.distinct (seen ++ (additionsOf rule).flatMap Addition.names) =
          Text.distinct (seen ++ (rule.name :: rule.body.symbols)) := by
        rw [additionsOf, List.flatMap_cons, ← List.append_assoc, List.append_cons seen rule.name]
        exact distinct_edges (List.mem_append_right seen List.mem_cons_self) rule.body.symbols
      rw [List.flatMap_cons, List.flatMap_append, List.flatMap_cons, ← List.append_assoc,
        ← List.append_assoc, Text.distinct_append_congr hOwn]
      exact ih _

end References

namespace Grammar

/-- The names that the declared rule of a name mentions. -/
def mentioned (g : Grammar) (name : Text) : List Text :=
  match g.find? name with
  | some rule => if rule.isExtra then [] else rule.body.symbols
  | none => []

variable {g : Grammar}

theorem mentioned_eq_symbols (h : g.WellFormed) {rule : Rule} (hRule : rule ∈ g.declared) :
    g.mentioned rule.name = rule.body.symbols := by
  obtain ⟨hRule, hOwn⟩ := mem_declared.1 hRule
  rw [mentioned, h.find?_eq_some_iff.2 ⟨hRule, rfl⟩]
  simp [hOwn]

theorem exists_of_mem_mentioned (h : g.WellFormed) {name target : Text}
    (hTarget : target ∈ g.mentioned name) :
    ∃ rule ∈ g.declared, rule.name = name ∧ target ∈ rule.body.symbols := by
  rw [mentioned] at hTarget
  cases hFind : g.find? name with
  | none =>
      rw [hFind] at hTarget
      exact absurd hTarget List.not_mem_nil
  | some rule =>
      obtain ⟨hRule, hName⟩ := h.find?_eq_some_iff.1 hFind
      rw [hFind] at hTarget
      simp only at hTarget
      split at hTarget
      · exact absurd hTarget List.not_mem_nil
      · rename_i hOwn
        exact ⟨rule, mem_declared.2 ⟨hRule, by simpa using hOwn⟩, hName, hTarget⟩

end Grammar

namespace References

/-- The edges from a name lead to what the declared rule of that name mentions, since no other rule
has its name. -/
theorem filterMap_declared {g : Grammar} (h : g.WellFormed) (name : Text) :
    (g.declared.flatMap additionsOf).filterMap (Addition.target? name) = g.mentioned name := by
  have hPicked : g.declared.filter (·.name = name) =
      (g.find? name).toList.filter (!·.isExtra) := by
    rw [Grammar.declared, List.filter_comm, Text.filter_key_eq_find? h.order_nodup]
    rfl
  rw [filterMap_additions, hPicked, Grammar.mentioned]
  cases g.find? name with
  | none => rfl
  | some rule => cases hExtra : rule.isExtra <;> simp [hExtra]

/-- A graph is grown from the empty one by what the declared rules add. -/
theorem eq_addAll_of_ofGrammar {g : Grammar} {refs : References} (h : ofGrammar g = .ok refs) :
    refs = addAll {} (g.declared.flatMap additionsOf) := by
  unfold ofGrammar at h
  split at h
  · exact absurd h (by simp)
  · rename_i hStopped
    rw [← Except.ok.inj h]
    exact collectRules_graph hStopped

/-- The successors of a rule are the names in its body, each at its first mention. -/
theorem successors_of_ofGrammar {g : Grammar} {refs : References} (hWell : g.WellFormed)
    (h : ofGrammar g = .ok refs) (name : Text) :
    refs.successors name = Text.distinct (g.mentioned name) := by
  rw [eq_addAll_of_ofGrammar h, successors_addAll, filterMap_declared hWell]

/-- The nodes come in the order of their first mention. -/
theorem nodes_of_ofGrammar {g : Grammar} {refs : References} (h : ofGrammar g = .ok refs) :
    refs.nodes =
      Text.distinct (g.declared.flatMap fun rule => rule.name :: rule.body.symbols) := by
  rw [eq_addAll_of_ofGrammar h, nodes_addAll]
  exact distinct_additionsOf g.declared []

/-- The nodes are the rules that are no extras. -/
theorem mem_nodes_of_ofGrammar {g : Grammar} {refs : References} (hWell : g.WellFormed)
    (h : ofGrammar g = .ok refs) (name : Text) :
    name ∈ refs.nodes ↔ name ∈ g.declared.map Rule.name := by
  have hCoherent := (ofGrammar_eq_ok_iff hWell).1 ⟨refs, h⟩
  rw [nodes_of_ofGrammar h, Text.mem_distinct, List.mem_flatMap]
  constructor
  · rintro ⟨rule, hRule, hName⟩
    rcases List.mem_cons.1 hName with rfl | hTarget
    · exact List.mem_map_of_mem hRule
    · exact hCoherent.closed rule hRule name hTarget
  · intro hName
    obtain ⟨rule, hRule, rfl⟩ := List.mem_map.1 hName
    exact ⟨rule, hRule, List.mem_cons_self⟩

end References

namespace Grammar

theorem ofGrammar_sample :
    References.ofGrammar sample = .ok (References.collect sample).graph := by
  decide +kernel

theorem coherent_sample : sample.Coherent :=
  (References.ofGrammar_eq_ok_iff (wellFormed_of_ofRules ofRules_sample)).1 ⟨_, ofGrammar_sample⟩

end Grammar

end TreeTypes

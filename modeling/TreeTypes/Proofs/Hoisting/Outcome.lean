import TreeTypes.Proofs.Grammar.WellFormed
import TreeTypes.Proofs.Hoisting.Independence

/-!
# The hoisted grammar

A harvest is put together into a grammar by the function that makes all
grammars, and that function can refuse. It never does: the rules made have new
names, and nothing that it checks about the old ones has changed. The result,
written here as `Grammar.hoisted`, is well-formed again. Hoisting gives it
unless it comes to a name that cannot be referred to, which is left to
`TreeTypes.Proofs.Hoisting.Success`.

What the stages behind hoisting rely on is stated here once, about the rules
of the result, without any mention of queues and supplies.

## Main results

* `Grammar.WellFormed.ofRules_harvested` — the harvest makes a grammar.
* `Grammar.WellFormed.hoisted` — its result is well-formed.
* `Grammar.rules_hoisted` — its rules, each from the rule that it comes of.
* `Grammar.WellFormed.exists_kept` — every rule is found again under its name.
* `Grammar.mem_invented_iff` — exactly which names are new.
* `Grammar.hoisted_symbols_perm` — conservation of references.
-/

namespace TreeTypes

open Hoisting

namespace Grammar

variable {g : Grammar}

/-! ## Putting together -/

/-- What hoisting makes of the rules of a grammar when every name can be referred to. -/
def harvested (g : Grammar) (counters : NameCounters) : Harvest :=
  Hoisting.harvested g.rules ⟨counters, g.order⟩

/-- The rules of a harvest as a grammar. -/
def hoisted (g : Grammar) (counters : NameCounters) : Grammar :=
  { g with rules := (g.harvested counters).declared ++ (g.harvested counters).synthetic }

/-- The names of the rules made. -/
def invented (g : Grammar) (counters : NameCounters) : List Text :=
  names (g.harvested counters).synthetic

/-- The supply of names that hoisting starts with: the names of the rules are in use. -/
def supply (g : Grammar) (counters : NameCounters) : NameSupply := ⟨counters, g.order⟩

theorem order_hoisted (g : Grammar) (counters : NameCounters) :
    (g.hoisted counters).order = g.order ++ g.invented counters := by
  show names ((g.harvested counters).declared ++ (g.harvested counters).synthetic) = _
  rw [names_append]
  exact congrArg (· ++ _) (names_harvested_declared g.rules _)

theorem nodup_invented (g : Grammar) (counters : NameCounters) :
    (g.invented counters).Nodup := (names_harvested_fresh g.rules ⟨counters, g.order⟩).1

/-- No new name is the name of a declared rule. -/
theorem notMem_order_of_mem_invented {counters : NameCounters} {name : Text}
    (h : name ∈ g.invented counters) : name ∉ g.order :=
  (names_harvested_fresh g.rules ⟨counters, g.order⟩).2 name h

theorem isMade_of_mem_synthetic {counters : NameCounters} {made : Rule}
    (h : made ∈ (g.harvested counters).synthetic) :
    IsMade made ∧ made.body.hasNestedChoice = false ∧
      ((∀ rule ∈ g.rules, rule.body.Valid) → made.body.Valid) :=
  isMade_harvested g.rules _ made h

theorem mem_rules_hoisted {counters : NameCounters} {rule : Rule} :
    rule ∈ (g.hoisted counters).rules ↔
      rule ∈ (g.harvested counters).declared ∨ rule ∈ (g.harvested counters).synthetic :=
  List.mem_append

/-- Every rule of the result is what became of a declared rule, or was made. -/
theorem exists_kept_of_mem_declared {counters : NameCounters} {rule' : Rule}
    (h : rule' ∈ (g.harvested counters).declared) :
    ∃ rule ∈ g.rules, Kept (g.harvested counters).synthetic rule rule' := by
  obtain ⟨hLength, hKept⟩ := harvested_kept g.rules ⟨counters, g.order⟩
  obtain ⟨rule, hPair⟩ := exists_mem_zip_right (Nat.le_of_eq hLength.symm) h
  exact ⟨rule, (List.of_mem_zip hPair).1, hKept _ hPair⟩

/-- Every declared rule became something. -/
theorem exists_kept_of_mem_rules (counters : NameCounters) {rule : Rule} (h : rule ∈ g.rules) :
    ∃ rule' ∈ (g.harvested counters).declared,
      Kept (g.harvested counters).synthetic rule rule' := by
  obtain ⟨hLength, hKept⟩ := harvested_kept g.rules ⟨counters, g.order⟩
  obtain ⟨rule', hPair⟩ := exists_mem_zip (Nat.le_of_eq hLength) h
  exact ⟨rule', (List.of_mem_zip hPair).2, hKept _ hPair⟩

/-! ## Rule by rule -/

/-- The rules made, owner by owner. -/
theorem synthetic_eq (hWell : g.WellFormed) (counters : NameCounters) :
    (g.harvested counters).synthetic = g.declared.flatMap (offspring · (g.supply counters)) :=
  (harvested_eq g.rules (g.supply counters) hWell.order_nodup).2

/-- The rules of the result: what is left of the rules, in their order, and what the declared ones
give rise to, in the order of their owners. -/
theorem rules_hoisted (hWell : g.WellFormed) (counters : NameCounters) :
    (g.hoisted counters).rules = g.rules.map (left · (g.supply counters)) ++
      g.declared.flatMap (offspring · (g.supply counters)) := by
  rw [← synthetic_eq hWell, ← (harvested_eq g.rules (g.supply counters) hWell.order_nodup).1]
  rfl

/-- What is left of a declared rule is a declared rule of the result. -/
theorem left_mem_declared_hoisted (hWell : g.WellFormed) (counters : NameCounters) {rule : Rule}
    (hRule : rule ∈ g.declared) :
    (rule.hoisted rule.name (g.supply counters)).result ∈ (g.hoisted counters).declared := by
  obtain ⟨hRule, hOwn⟩ := mem_declared.1 hRule
  refine mem_declared.2 ⟨?_, hOwn⟩
  rw [rules_hoisted hWell]
  refine List.mem_append_left _ (List.mem_map.2 ⟨rule, hRule, ?_⟩)
  rw [left, if_neg (by simp [hOwn])]

/-- What a declared rule gives rise to are declared rules of the result. -/
theorem offspring_mem_declared_hoisted (hWell : g.WellFormed) {counters : NameCounters}
    {rule made : Rule} (hRule : rule ∈ g.declared)
    (hMade : made ∈ offspring rule (g.supply counters)) :
    made ∈ (g.hoisted counters).declared := by
  refine mem_declared.2 ⟨?_, (isMade_offspring hMade).1.isExtra⟩
  rw [rules_hoisted hWell]
  exact List.mem_append_right _ (List.mem_flatMap.2 ⟨rule, hRule, hMade⟩)

namespace WellFormed

/-- Hoisting keeps a grammar well-formed. -/
theorem hoisted (h : g.WellFormed) (counters : NameCounters) :
    (g.hoisted counters).WellFormed := by
  constructor
  · rw [order_hoisted, List.nodup_append']
    refine ⟨h.order_nodup, g.nodup_invented counters, ?_⟩
    intro name hOld hNew
    exact notMem_order_of_mem_invented hNew hOld
  · rw [order_hoisted]
    exact List.mem_append_left _ h.root_mem
  · intro hNil
    rw [order_hoisted, List.head?_append, h.root_eq_nil hNil]
    rfl
  · exact h.extras_nodup
  · intro name hName
    rw [order_hoisted]
    exact List.mem_append_left _ (h.extras_subset name hName)
  · intro rule' hRule
    rcases mem_rules_hoisted.1 hRule with hDeclared | hMade
    · obtain ⟨rule, hOriginal, hKept⟩ := exists_kept_of_mem_declared hDeclared
      rw [hKept.isExtra_eq, hKept.name_eq]
      exact h.isExtra_iff rule hOriginal
    · have hFlag := (isMade_of_mem_synthetic hMade).1.isExtra
      have hNew : rule'.name ∈ g.invented counters := List.mem_map_of_mem hMade
      constructor
      · intro hExtra
        exact absurd (hExtra.symm.trans hFlag) (by simp)
      · intro hExtra
        exact absurd (h.extras_subset _ hExtra) (notMem_order_of_mem_invented hNew)

/-- The rules of a harvest make a grammar. -/
theorem ofRules_harvested (h : g.WellFormed) (counters : NameCounters) :
    ofRules g.name ((g.harvested counters).declared ++ (g.harvested counters).synthetic)
      (some g.root) g.extras = .ok (g.hoisted counters) :=
  (h.hoisted counters).ofRules_eq_ok

/-! ## Looking up in the result -/

/-- Every declared rule is found again under its name. -/
theorem exists_kept (h : g.WellFormed) (counters : NameCounters) {rule : Rule}
    (hRule : rule ∈ g.rules) :
    ∃ rule', (g.hoisted counters).find? rule.name = some rule' ∧
      Kept (g.harvested counters).synthetic rule rule' := by
  obtain ⟨rule', hDeclared, hKept⟩ := exists_kept_of_mem_rules counters hRule
  exact ⟨rule', (h.hoisted counters).find?_eq_some_iff.2
    ⟨mem_rules_hoisted.2 (Or.inl hDeclared), hKept.name_eq⟩, hKept⟩

/-- A rule that was made is found under its name. -/
theorem find?_made (h : g.WellFormed) {counters : NameCounters} {made : Rule}
    (hMade : made ∈ (g.harvested counters).synthetic) :
    (g.hoisted counters).find? made.name = some made :=
  (h.hoisted counters).find?_eq_some_iff.2 ⟨mem_rules_hoisted.2 (Or.inr hMade), rfl⟩

end WellFormed

/-- The rules of a grammar that bear no name of another. -/
def addedTo (g other : Grammar) : List Rule :=
  other.rules.filter fun rule => rule.name ∉ g.order

/-- The rules of the result that bear no declared name are the rules made. -/
theorem addedTo_hoisted (g : Grammar) (counters : NameCounters) :
    g.addedTo (g.hoisted counters) = (g.harvested counters).synthetic := by
  show ((g.harvested counters).declared ++ (g.harvested counters).synthetic).filter _ = _
  rw [List.filter_append, List.filter_eq_nil_iff.2, List.filter_eq_self.2, List.nil_append]
  · intro made hMade
    exact decide_eq_true (notMem_order_of_mem_invented (List.mem_map_of_mem hMade))
  · intro rule' hDeclared
    obtain ⟨rule, hRule, hKept⟩ := exists_kept_of_mem_declared hDeclared
    rw [decide_eq_true_iff, Classical.not_not, hKept.name_eq]
    exact List.mem_map_of_mem hRule

/-! ## The new names -/

/-- The new names are the draws that every rule without the others would make: numbered names,
counted from where the rule's counter stands, that are not declared, one for each nested choice. -/
theorem mem_invented_iff (h : g.WellFormed) {counters : NameCounters} {name : Text} :
    name ∈ g.invented counters ↔ ∃ owner ∈ g.declared, ∃ k,
      name = numberedName owner.name k ∧ counters.count owner.name ≤ k ∧ name ∉ g.order ∧
        NameSupply.freeBelow ⟨counters, g.order⟩ owner.name k < owner.body.nestedChoiceCount := by
  have hNames := mem_names_harvested_iff ⟨counters, g.order⟩ h.order_nodup name
  constructor
  · intro hName
    obtain ⟨owner, hOwner, hOwn, hDrawn⟩ := hNames.1 hName
    obtain ⟨k, rfl, hCount, hFree, hBelow⟩ := (NameSupply.mem_drawMany_iff _ _ _ _).1 hDrawn
    exact ⟨owner, mem_declared.2 ⟨hOwner, hOwn⟩, k, rfl, hCount, hFree, hBelow⟩
  · rintro ⟨owner, hOwner, k, rfl, hCount, hFree, hBelow⟩
    obtain ⟨hOwner, hOwn⟩ := mem_declared.1 hOwner
    exact hNames.2 ⟨owner, hOwner, hOwn, (NameSupply.mem_drawMany_iff _ _ _ _).2
      ⟨k, rfl, hCount, hFree, hBelow⟩⟩

/-! ## References in the result -/

theorem declared_hoisted (g : Grammar) (counters : NameCounters) :
    (g.hoisted counters).declared =
      own (g.harvested counters).declared ++ (g.harvested counters).synthetic := by
  show own ((g.harvested counters).declared ++ (g.harvested counters).synthetic) = _
  rw [own, List.filter_append]
  refine congrArg (_ ++ ·) (List.filter_eq_self.2 ?_)
  intro made hMade
  rw [(isMade_of_mem_synthetic hMade).1.isExtra]
  rfl

theorem names_declared_hoisted (g : Grammar) (counters : NameCounters) :
    (g.hoisted counters).declared.map Rule.name =
      g.declared.map Rule.name ++ g.invented counters := by
  rw [declared_hoisted, List.map_append]
  exact congrArg (· ++ _) (names_own_harvested g.rules _)

/-- Conservation of references: the rules of the result mention what the declared rules mention,
and every new rule once. -/
theorem hoisted_symbols_perm (g : Grammar) (counters : NameCounters) :
    (mentions (g.hoisted counters).declared).Perm
      (mentions g.declared ++ g.invented counters) := by
  rw [declared_hoisted, mentions_append]
  exact harvested_symbols_perm g.rules ⟨counters, g.order⟩

theorem mem_mentions_hoisted_iff {counters : NameCounters} {name : Text} :
    name ∈ mentions (g.hoisted counters).declared ↔
      name ∈ mentions g.declared ∨ name ∈ g.invented counters := by
  rw [(g.hoisted_symbols_perm counters).mem_iff, List.mem_append]

end Grammar

end TreeTypes

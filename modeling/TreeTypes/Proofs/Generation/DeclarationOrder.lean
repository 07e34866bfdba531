import TreeTypes.Proofs.Emission.Reachability
import TreeTypes.Proofs.Emission.Transparency
import TreeTypes.Proofs.Generation.Outcome

/-!
# The order of declaration

Two grammars with the same rules, declared in different orders, are nearly the
same to every stage. Hoisting treats every rule as if it were alone, so the
hoisted grammars have the same rules too. Looking up, the references of a rule
and the traversal from the root do not see an order at all.

One place is left where the order shows: the rules that the root does not lead
to are written in the order of their declaration, and behind them, owner by
owner, the rules made of them. Rules made of a reached owner do not get there,
because they are reached themselves. If both grammars declare their strays in
the same order, the two blocks are therefore the same, and without strays they
are the same whatever the orders are.

## Main results

* `Grammar.perm_rules_hoisted` — the same rules after hoisting.
* `Grammar.unreached_hoisted_eq` — the unreached rules of a hoisted grammar,
  from the strays of the given one.
* `Grammar.types_eq_of_perm` — the same declarations, if the strays agree.
* `Grammar.typeBlock_eq_of_same_rules` — the same block.
-/

namespace TreeTypes

open Hoisting

/-! ## Lists in the same order -/

/-- Two arrangements of the same rules are equal if both follow one list of names. -/
theorem Rule.eq_of_perm_of_sublist {rules rules' : List Rule} (hPerm : rules.Perm rules')
    {order : List Text} (hNodup : order.Nodup)
    (h : ∀ a b, [a, b].Sublist rules → [a.name, b.name].Sublist order)
    (h' : ∀ a b, [a, b].Sublist rules' → [a.name, b.name].Sublist order) : rules = rules' := by
  have hFirst : rules.Pairwise fun a b => [a.name, b.name].Sublist order :=
    List.pairwise_iff_forall_sublist.2 fun {a b} hSub => h a b hSub
  have hSecond : rules'.Pairwise fun a b => [a.name, b.name].Sublist order :=
    List.pairwise_iff_forall_sublist.2 fun {a b} hSub => h' a b hSub
  refine List.Perm.eq_of_pairwise (fun a b _ _ hBefore hAfter => ?_) hFirst hSecond hPerm
  -- In a list without repetitions two names cannot each stand before the other.
  have hLess := idxOf_lt_of_sublist hNodup hBefore
  have hMore := idxOf_lt_of_sublist hNodup hAfter
  omega

/-- Members that contribute nothing can be left out. -/
theorem flatMap_eq_flatMap_filter {α β : Type} {keep : α → Bool} {f : α → List β} {as : List α}
    (h : ∀ a ∈ as, keep a = false → f a = []) : as.flatMap f = (as.filter keep).flatMap f := by
  induction as with
  | nil => rfl
  | cons a rest ih =>
      have hRest := ih fun other hOther => h other (List.mem_cons_of_mem _ hOther)
      cases hKeep : keep a with
      | true => rw [List.filter_cons_of_pos hKeep, List.flatMap_cons, List.flatMap_cons, hRest]
      | false =>
          rw [List.filter_cons_of_neg (by simp [hKeep]), List.flatMap_cons,
            h a List.mem_cons_self hKeep, hRest, List.nil_append]

namespace Grammar

variable {g g' : Grammar} {refs refs' : References}

/-! ## Hoisting does not see the order -/

theorem perm_order (hPerm : g.rules.Perm g'.rules) : g.order.Perm g'.order := hPerm.map _

theorem perm_declared (hPerm : g.rules.Perm g'.rules) : g.declared.Perm g'.declared :=
  hPerm.filter _

/-- With the rules in another order the supply is as good as the same. -/
theorem supply_agrees (hPerm : g.rules.Perm g'.rules) (counters : NameCounters) (owner : Text) :
    (g.supply counters).Agrees owner (g'.supply counters) :=
  .of_mem_iff (fun _ => (perm_order hPerm).mem_iff) owner

theorem offspring_supply_eq (hPerm : g.rules.Perm g'.rules) (counters : NameCounters)
    (rule : Rule) : offspring rule (g.supply counters) = offspring rule (g'.supply counters) :=
  offspring_eq (supply_agrees hPerm counters rule.name)

/-- The hoisted grammar has the same rules for every order of declaration. -/
theorem perm_rules_hoisted (hWell : g.WellFormed) (hWell' : g'.WellFormed)
    (hPerm : g.rules.Perm g'.rules) (counters : NameCounters) :
    (g.hoisted counters).rules.Perm (g'.hoisted counters).rules := by
  have hLeft : (left · (g.supply counters)) = (left · (g'.supply counters)) :=
    funext fun rule => left_eq (supply_agrees hPerm counters rule.name)
  have hMade : (offspring · (g.supply counters)) = (offspring · (g'.supply counters)) :=
    funext fun rule => offspring_supply_eq hPerm counters rule
  rw [rules_hoisted hWell, rules_hoisted hWell', hLeft, hMade]
  exact (hPerm.map _).append ((perm_declared hPerm).flatMap_right _)

/-! ## Stages that do not see the order -/

/-- Being coherent does not depend on the order of the rules. -/
theorem Coherent.perm (h : g.Coherent) (hPerm : g.rules.Perm g'.rules) : g'.Coherent := by
  have hDeclared := perm_declared hPerm
  constructor
  · intro rule hRule target hTarget
    exact (hDeclared.map Rule.name).mem_iff.1
      (h.closed rule (hDeclared.mem_iff.2 hRule) target hTarget)
  · exact fun rule hRule => h.extra_symbols rule (hPerm.mem_iff.2 hRule)
  · exact fun rule hRule => h.extra_flat rule (hPerm.mem_iff.2 hRule)

/-- Whether a grammar can be hoisted does not depend on the order of the rules. -/
theorem hoistable_congr (hPerm : g.rules.Perm g'.rules) : g.Hoistable ↔ g'.Hoistable := by
  have hDeclared := perm_declared hPerm
  exact ⟨fun h rule hRule => h rule (hDeclared.mem_iff.2 hRule),
    fun h rule hRule => h rule (hDeclared.mem_iff.1 hRule)⟩

section Perm

variable (hWell : g.WellFormed) (hWell' : g'.WellFormed) (hPerm : g.rules.Perm g'.rules)

include hWell hWell' hPerm

theorem find?_eq_of_perm (name : Text) : g.find? name = g'.find? name := by
  refine Option.ext fun rule => ?_
  rw [hWell.find?_eq_some_iff, hWell'.find?_eq_some_iff, hPerm.mem_iff]

theorem typeDecls_eq_of_perm (settings : Settings) (order : List Text) :
    g.typeDecls settings order = g'.typeDecls settings order := by
  induction order with
  | nil => rfl
  | cons name rest ih =>
      rw [typeDecls, typeDecls, get, get, find?_eq_of_perm hWell hWell' hPerm, ih]

/-- The root leads to the same rules, in the same order. -/
theorem reached_eq_of_perm (hRoot : g.root = g'.root) (hRefs : References.ofGrammar g = .ok refs)
    (hRefs' : References.ofGrammar g' = .ok refs') : g.reached refs = g'.reached refs' := by
  have hSuccessors : ∀ name, refs.successors name = refs'.successors name := by
    intro name
    rw [References.successors_of_ofGrammar hWell hRefs,
      References.successors_of_ofGrammar hWell' hRefs', mentioned, mentioned,
      find?_eq_of_perm hWell hWell' hPerm]
  have hNode : g'.root ∈ refs.nodes ↔ g'.root ∈ refs'.nodes := by
    rw [References.mem_nodes_of_ofGrammar hWell hRefs,
      References.mem_nodes_of_ofGrammar hWell' hRefs']
    exact ((perm_declared hPerm).map Rule.name).mem_iff
  rw [reached, reached, hRoot, refs.visit_congr hSuccessors]
  simp only [hNode]

end Perm

/-! ## What the root does not lead to -/

/-- The declared rules whose names are not among the given ones. -/
def strays (g : Grammar) (reached : List Text) : List Rule :=
  g.declared.filter (·.name ∉ reached)

/-- The unreached rules of a hoisted grammar are the declared rules that are not reached and, owner
by owner, what was made of them. -/
theorem unreached_hoisted_eq (hWell : g.WellFormed) {counters : NameCounters}
    (hRefs : References.ofGrammar (g.hoisted counters) = .ok refs) {reached : List Text}
    (hReached : (g.hoisted counters).reached refs = reached) :
    (g.hoisted counters).unreached refs = names (g.strays reached) ++
      (g.strays reached).flatMap fun rule =>
        (names (offspring rule (g.supply counters))).filter (· ∉ reached) := by
  have hMade : g.invented counters =
      g.declared.flatMap fun rule => names (offspring rule (g.supply counters)) := by
    rw [invented, synthetic_eq hWell, names, List.map_flatMap]
    rfl
  have hOwners : g.declared.flatMap (fun rule =>
        (names (offspring rule (g.supply counters))).filter (· ∉ reached)) =
      (g.strays reached).flatMap fun rule =>
        (names (offspring rule (g.supply counters))).filter (· ∉ reached) := by
    refine flatMap_eq_flatMap_filter fun rule hRule hIn => ?_
    -- Where the owner is reached, so is everything that was made of it.
    have hOwner : rule.name ∈ (g.hoisted counters).reached refs := by
      rw [hReached]
      simpa using hIn
    rw [List.filter_eq_nil_iff]
    intro name hName
    have hMem := mem_reached_of_mem_offspring hWell hRefs hRule hOwner name hName
    rw [hReached] at hMem
    simpa using hMem
  have hDeclared : (g.declared.map Rule.name).filter (· ∉ reached) = names (g.strays reached) := by
    rw [List.filter_map]
    rfl
  rw [unreached, hReached, names_declared_hoisted, List.filter_append, hDeclared, hMade,
    List.filter_flatMap, hOwners]

/-- After hoisting the root leads to the declared rules that it led to before. -/
theorem mem_reached_hoisted_iff (hWell : g.WellFormed) (hRefs : References.ofGrammar g = .ok refs)
    {counters : NameCounters} (hRefs' : References.ofGrammar (g.hoisted counters) = .ok refs')
    {rule : Rule} (hRule : rule ∈ g.declared) :
    rule.name ∈ (g.hoisted counters).reached refs' ↔ g.Reaches rule.name := by
  have hName : rule.name ∈ g.declared.map Rule.name := List.mem_map_of_mem hRule
  have hOld : rule.name ∉ g.invented counters := fun hInvented =>
    notMem_order_of_mem_invented hInvented (hWell.mem_declared_names.1 hName).1
  have hSame := reached_hoisted hWell hRefs hRefs'
  have hMem : rule.name ∈ g.reached refs ↔ _ := mem_reached_iff hWell hRefs
  rw [← hSame, List.mem_filter] at hMem
  constructor
  · intro hReached
    exact (hMem.1 ⟨hReached, decide_eq_true hOld⟩).2
  · intro hReaches
    exact (hMem.2 ⟨hName, hReaches⟩).1

/-! ## The same block -/

/-- The rules that the root does not lead to are declared in the same order in another grammar. -/
def AlignsStrays (g g' : Grammar) : Prop :=
  ∀ a ∈ g.declared, ∀ b ∈ g.declared, ¬ g.Reaches a.name → ¬ g.Reaches b.name →
    [a.name, b.name].Sublist g.order → [a.name, b.name].Sublist g'.order

section SameRules

variable (hWell : g.WellFormed) (hWell' : g'.WellFormed) (hPerm : g.rules.Perm g'.rules)
  (hRefs : References.ofGrammar g = .ok refs)

include hWell hWell' hPerm hRefs

/-- If the unreached rules are aligned, the strays after hoisting are the same. -/
theorem strays_eq_of_perm (hStrays : g.AlignsStrays g') {counters : NameCounters}
    (hRefs' : References.ofGrammar (g.hoisted counters) = .ok refs') :
    g.strays ((g.hoisted counters).reached refs') =
      g'.strays ((g.hoisted counters).reached refs') := by
  refine Rule.eq_of_perm_of_sublist ((perm_declared hPerm).filter _) hWell'.order_nodup ?_ ?_
  · intro a b hSub
    have hStray : ∀ rule ∈ [a, b], rule ∈ g.declared ∧ ¬ g.Reaches rule.name := by
      intro rule hRule
      obtain ⟨hDeclared, hOut⟩ := List.mem_filter.1 (hSub.subset hRule)
      refine ⟨hDeclared, fun hReaches => ?_⟩
      exact of_decide_eq_true hOut
        ((mem_reached_hoisted_iff hWell hRefs hRefs' hDeclared).2 hReaches)
    obtain ⟨hA, hOutA⟩ := hStray a List.mem_cons_self
    obtain ⟨hB, hOutB⟩ := hStray b (List.mem_cons_of_mem _ List.mem_cons_self)
    refine hStrays a hA b hB hOutA hOutB ?_
    exact (hSub.trans (List.filter_sublist.trans List.filter_sublist)).map Rule.name
  · intro a b hSub
    exact (hSub.trans (List.filter_sublist.trans List.filter_sublist)).map Rule.name

/-- The same rules have the same declarations, if the unreached ones are aligned. -/
theorem types_eq_of_perm (hHoistable : g.Hoistable) (hRoot : g.root = g'.root)
    (hExtras : g.extras = g'.extras) (hStrays : g.AlignsStrays g') (settings : Settings) :
    g.types settings = g'.types settings := by
  have hHoisted := hWell.hoisted {}
  have hHoisted' := hWell'.hoisted {}
  have hPermHoisted := perm_rules_hoisted hWell hWell' hPerm {}
  have hCoherent := ((References.ofGrammar_eq_ok_iff hWell).1 ⟨refs, hRefs⟩).hoisted {}
  obtain ⟨after, hAfter⟩ := (References.ofGrammar_eq_ok_iff hHoisted).2 hCoherent
  obtain ⟨after', hAfter'⟩ :=
    (References.ofGrammar_eq_ok_iff hHoisted').2 (hCoherent.perm hPermHoisted)
  have hReached : (g.hoisted {}).reached after = (g'.hoisted {}).reached after' :=
    reached_eq_of_perm hHoisted hHoisted' hPermHoisted hRoot hAfter hAfter'
  have hSame := strays_eq_of_perm hWell hWell' hPerm hRefs hStrays hAfter
  have hUnreached : (g.hoisted {}).unreached after = (g'.hoisted {}).unreached after' := by
    rw [unreached_hoisted_eq hWell hAfter rfl, unreached_hoisted_eq hWell' hAfter' hReached.symm,
      hSame]
    simp only [offspring_supply_eq hPerm]
  have hOrder : (g.hoisted {}).emissionOrder after = (g'.hoisted {}).emissionOrder after' := by
    rw [emissionOrder, emissionOrder, hReached, hUnreached]
    exact congrArg (_ ++ ·) hExtras
  rw [types_eq_typesOfHoisted hWell hHoistable,
    types_eq_typesOfHoisted hWell' ((hoistable_congr hPerm).1 hHoistable), typesOfHoisted,
    typesOfHoisted, hAfter, hAfter']
  simp only
  rw [hOrder, typeDecls_eq_of_perm hHoisted hHoisted' hPermHoisted]

end SameRules

/-- The block does not depend on the order of declaration, beyond the order of the rules that the
root does not lead to. Two grammars made of the same rules, with the same root and extras, have the
same block if the first one is accepted and can be hoisted and the second one declares those rules
in the same order; in particular if there are none. If it cannot be hoisted, neither can the other,
and there is no block of either. -/
theorem typeBlock_eq_of_same_rules {name name' : Text} {rules rules' : List Rule}
    {root root' : Option Text} {extras extras' : List Text} {g g' : Grammar}
    (hBuilt : ofRules name rules root extras = .ok g)
    (hBuilt' : ofRules name' rules' root' extras' = .ok g')
    (hValid : ∀ rule ∈ rules, rule.body.Valid) (hSame : ∀ rule, rule ∈ rules ↔ rule ∈ rules')
    (hRoot : g.root = g'.root) (hExtras : g.extras = g'.extras) {refs : References}
    (hRefs : References.ofGrammar g = .ok refs) (settings : Settings) :
    (g.Hoistable →
      (g.AlignsStrays g' →
        ∃ text, g.typeBlock settings = .ok text ∧ g'.typeBlock settings = .ok text) ∧
      ((∀ rule ∈ g.declared, g.Reaches rule.name) →
        ∃ text, g.typeBlock settings = .ok text ∧ g'.typeBlock settings = .ok text)) ∧
    (¬ g.Hoistable →
      g.typeBlock settings = .error .referenceNotUnicode ∧
        g'.typeBlock settings = .error .referenceNotUnicode) := by
  have hWell := wellFormed_of_ofRules hBuilt
  have hWell' := wellFormed_of_ofRules hBuilt'
  have hPerm : g.rules.Perm g'.rules := by
    rw [rules_of_ofRules hBuilt, rules_of_ofRules hBuilt', hExtras]
    exact ((List.perm_ext_iff_of_nodup (nodup_of_ofRules hBuilt)
      (nodup_of_ofRules hBuilt')).2 hSame).map _
  constructor
  · intro hHoistable
    have hCoherent := (References.ofGrammar_eq_ok_iff hWell).1 ⟨refs, hRefs⟩
    obtain ⟨text, hText⟩ := exists_typeBlock_of_coherent hWell (valid_of_ofRules hValid hBuilt)
      hHoistable (hCoherent.hoisted {}) settings
    have hAligned : g.AlignsStrays g' →
        ∃ text, g.typeBlock settings = .ok text ∧ g'.typeBlock settings = .ok text := by
      intro hStrays
      refine ⟨text, hText, ?_⟩
      rw [typeBlock,
        ← types_eq_of_perm hWell hWell' hPerm hRefs hHoistable hRoot hExtras hStrays]
      exact hText
    refine ⟨hAligned, fun hAll => hAligned ?_⟩
    intro a hA b _ hOut
    exact absurd (hAll a hA) hOut
  · intro hNot
    exact ⟨(types_eq_error_of_not hNot settings).2,
      (types_eq_error_of_not (fun h => hNot ((hoistable_congr hPerm).2 h)) settings).2⟩

/-! ## Another order -/

/-- The rules of `sample` from the last one to the first. -/
def reversed : Grammar := { sample with rules := sample.rules.reverse }

theorem ofRules_reversed :
    ofRules "sample" reversed.rules (some "program") ["comment"] = .ok reversed := by
  decide

/-- Only one rule of `sample` is not reached, so there is no order to keep. -/
theorem alignsStrays_sample : sample.AlignsStrays reversed := by
  have hProgram : sample.rules[0] ∈ sample.rules := List.mem_cons_self
  have hItem : sample.Reaches "item" := .mention hProgram .root (by decide)
  have hStray : ∀ rule ∈ sample.declared, ¬ sample.Reaches rule.name → rule.name = "stray" := by
    intro rule hRule hOut
    have hNames : rule.name ∈ sample.declared.map Rule.name := List.mem_map_of_mem hRule
    have hCases : rule.name = "program" ∨ rule.name = "item" ∨ rule.name = "stray" := by
      simpa [sample, declared] using hNames
    rcases hCases with hName | hName | hName
    · exact absurd (hName ▸ .root) hOut
    · exact absurd (hName ▸ hItem) hOut
    · exact hName
  intro a hA b hB hOutA hOutB hSub
  rw [hStray a hA hOutA, hStray b hB hOutB] at hSub
  exact absurd hSub (by decide)

theorem typeBlock_eq_of_same_rules_reversed :
    (∀ rule, rule ∈ sample.rules ↔ rule ∈ reversed.rules) ∧ sample.AlignsStrays reversed ∧
      ∃ text, sample.typeBlock {} = .ok text ∧ reversed.typeBlock {} = .ok text := by
  have hSame : ∀ rule, rule ∈ sample.rules ↔ rule ∈ reversed.rules := fun rule =>
    List.mem_reverse.symm
  have hBlocks := (typeBlock_eq_of_same_rules ofRules_sample ofRules_reversed valid_sample hSame
    rfl rfl ofGrammar_sample {}).1 hoistable_sample
  exact ⟨hSame, alignsStrays_sample, hBlocks.1 alignsStrays_sample⟩

/-- There is a grammar with valid bodies whose references are accepted, in which every rule is
reached, and which has no block, in this order of its rules or in any other. -/
theorem exists_same_rules_without_block :
    ∃ g, ofRules "g" [.misnamed] none [] = .ok g ∧ (∀ rule ∈ [Rule.misnamed], rule.body.Valid) ∧
      (∃ refs, References.ofGrammar g = .ok refs) ∧
      (∀ rule ∈ g.declared, g.Reaches rule.name) ∧ ∀ text, g.typeBlock {} ≠ .ok text := by
  refine ⟨misnamed, ofRules_misnamed, valid_misnamed, ?_, ?_, ?_⟩
  · exact (References.ofGrammar_eq_ok_iff (wellFormed_of_ofRules ofRules_misnamed)).2
      coherent_misnamed
  · intro rule hRule
    rw [List.mem_singleton.1 hRule]
    exact .root
  · intro text hText
    rw [(types_eq_error_of_not not_hoistable_misnamed {}).2] at hText
    exact absurd hText (by simp)

end Grammar

end TreeTypes

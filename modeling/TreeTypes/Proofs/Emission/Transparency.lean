import TreeTypes.Proofs.Emission.Splicing
import TreeTypes.Proofs.Hoisting.Acceptance
import TreeTypes.Proofs.Hoisting.Conservation

/-!
# Hoisting does not show in the order

The references of a hoisted grammar are those of the given one with the rules
made spliced in: where a body mentioned the names in a nested choice, it now
mentions one rule, and that rule mentions them. By conservation of references
each rule made has exactly one referrer. So the comparison of traversals
applies, and the order in which declarations are written is, without the rules
made, the order that the given grammar has.

The rules that the root does not reach follow in the order of declaration, and
rules made are declared behind the rules that mention them. Together with the
traversal, which visits a rule made after its referrer, this puts every rule
made behind its referrer in all cases.

## Main results

* `Grammar.emissionOrder_hoisted` — without the rules made, the order is kept.
* `Grammar.sublist_emissionOrder` — a rule made stands behind its referrer.
* `Grammar.emission_hoist` — both, for every grammar whose references are
  accepted and that can be hoisted.
-/

namespace TreeTypes

open Hoisting References

/-! ## Rules with one referrer -/

namespace Hoisting

/-- A name that is mentioned once is mentioned by one rule. -/
theorem eq_of_count_mentions_le_one {rules : List Rule} {name : Text}
    (h : (mentions rules).count name ≤ 1) {a b : Rule} (ha : a ∈ rules) (hb : b ∈ rules)
    (hInA : name ∈ a.body.symbols) (hInB : name ∈ b.body.symbols) : a = b := by
  induction rules with
  | nil => exact absurd ha List.not_mem_nil
  | cons first rest ih =>
      rw [mentions_cons, List.count_append] at h
      -- If the first rule mentions the name, no other one does.
      have hAlone : name ∈ first.body.symbols → ∀ other ∈ rest, name ∉ other.body.symbols := by
        intro hFirst other hOther hMentioned
        have hOne := List.count_pos_iff.2 hFirst
        have hTwo := List.count_pos_iff.2 (mem_mentions.2 ⟨other, hOther, hMentioned⟩)
        omega
      rcases List.mem_cons.1 ha with rfl | haRest
      · rcases List.mem_cons.1 hb with rfl | hbRest
        · rfl
        · exact absurd hInB (hAlone hInA b hbRest)
      · rcases List.mem_cons.1 hb with rfl | hbRest
        · exact absurd hInA (hAlone hInB a haRest)
        · exact ih (by omega) haRest hbRest

theorem count_symbols_le {rules : List Rule} {rule : Rule} (h : rule ∈ rules) (name : Text) :
    rule.body.symbols.count name ≤ (mentions rules).count name := by
  obtain ⟨before, after, rfl⟩ := List.append_of_mem h
  rw [mentions_append, mentions_cons, List.count_append, List.count_append]
  omega

end Hoisting

namespace Grammar

variable {g : Grammar}

/-- Conservation of references, seen from a rule made: it is mentioned once. -/
theorem count_mentions_hoisted (hCoherent : g.Coherent) {counters : NameCounters} {name : Text}
    (h : name ∈ g.invented counters) :
    (mentions (g.hoisted counters).declared).count name = 1 := by
  refine count_mentions_of_invented h fun hMentioned => ?_
  exact notMem_order_of_mem_invented h (hCoherent.mentions_subset hMentioned)

theorem oneReferrer_hoisted (hWell : g.WellFormed) (hCoherent : g.Coherent)
    (counters : NameCounters) :
    OneReferrer (g.hoisted counters).mentioned (g.invented counters) := by
  have hHoisted := hWell.hoisted counters
  constructor
  · intro name hName a b hInA hInB
    obtain ⟨ruleA, hRuleA, rfl, hSymbolsA⟩ := exists_of_mem_mentioned hHoisted hInA
    obtain ⟨ruleB, hRuleB, rfl, hSymbolsB⟩ := exists_of_mem_mentioned hHoisted hInB
    have hOnce := Nat.le_of_eq (count_mentions_hoisted hCoherent hName)
    rw [eq_of_count_mentions_le_one hOnce hRuleA hRuleB hSymbolsA hSymbolsB]
  · intro name hName a
    by_cases hMentioned : name ∈ (g.hoisted counters).mentioned a
    · obtain ⟨rule, hRule, rfl, -⟩ := exists_of_mem_mentioned hHoisted hMentioned
      rw [mentioned_eq_symbols hHoisted hRule, ← count_mentions_hoisted hCoherent hName]
      exact count_symbols_le hRule name
    · rw [List.count_eq_zero_of_not_mem hMentioned]
      exact Nat.zero_le 1

end Grammar

/-! ## The references of an outline -/

theorem expands_members {next : Text → List Text} {made : List Text}
    {members members' : List Expr} (hLength : members.length = members'.length)
    (h : ∀ pair ∈ members.zip members', Expands next made pair.2.symbols pair.1.symbols) :
    Expands next made (members'.flatMap Expr.symbols) (members.flatMap Expr.symbols) := by
  induction members generalizing members' with
  | nil =>
      rw [List.length_eq_zero_iff.1 hLength.symm]
      exact .nil
  | cons e rest ih =>
      cases members' with
      | nil => exact absurd hLength (by simp)
      | cons e' rest' =>
          rw [List.flatMap_cons, List.flatMap_cons]
          refine (h (e, e') List.mem_cons_self).append (ih (by simpa using hLength) ?_)
          intro pair hPair
          exact h pair (List.mem_cons_of_mem _ hPair)

/-- The references of an outline stand for those of the expression. -/
theorem Expr.Outlined.expands {added : List Rule} {next : Text → List Text}
    (hNext : ∀ rule ∈ added, next rule.name = rule.body.symbols) {e e' : Expr}
    (h : Outlined added e e') (hOwn : ∀ name ∈ e.symbols, name ∉ names added) :
    Expands next (names added) e'.symbols e.symbols := by
  induction h with
  | symbol name => exact .own (hOwn name (List.mem_singleton.2 rfl)) .nil
  | terminal kind value => exact .nil
  | blank => exact .nil
  | sequence hLength _ ih =>
      rw [symbols, symbolsOfMembers_eq, symbols, symbolsOfMembers_eq]
      refine expands_members hLength fun pair hPair => ih pair hPair fun name hName => ?_
      exact hOwn name (mem_symbols_of_mem_members (List.of_mem_zip hPair).1 hName)
  | repetition _ ih => exact ih hOwn
  | @choice members members' rule hRule hBody hLength _ ih =>
      have hMade : rule.name ∈ names added := List.mem_map_of_mem hRule
      have hInner : Expands next (names added) (next rule.name) (members.flatMap symbols) := by
        rw [hNext rule hRule, hBody, symbols, symbolsOfMembers_eq]
        refine expands_members hLength fun pair hPair => ih pair hPair fun name hName => ?_
        exact hOwn name (mem_symbols_of_mem_members (List.of_mem_zip hPair).1 hName)
      have hWhole := Expands.made hMade hInner .nil
      rw [List.append_nil, ← symbolsOfMembers_eq] at hWhole
      exact hWhole

theorem Expr.OutlinedBelow.expands {added : List Rule} {next : Text → List Text}
    (hNext : ∀ rule ∈ added, next rule.name = rule.body.symbols) {e e' : Expr}
    (h : OutlinedBelow added e e') (hOwn : ∀ name ∈ e.symbols, name ∉ names added) :
    Expands next (names added) e'.symbols e.symbols := by
  cases h with
  | choice hLength hMembers =>
      rw [symbols, symbolsOfMembers_eq, symbols, symbolsOfMembers_eq]
      refine expands_members hLength fun pair hPair =>
        (hMembers pair hPair).expands hNext fun name hName => ?_
      exact hOwn name (mem_symbols_of_mem_members (List.of_mem_zip hPair).1 hName)
  | other hNot hOutlined => exact hOutlined.expands hNext hOwn

namespace Grammar

variable {g : Grammar}

/-- What a declared rule mentions after hoisting stands for what it mentioned before. -/
theorem expands_mentioned (hWell : g.WellFormed) (hCoherent : g.Coherent)
    (counters : NameCounters) {name : Text} (h : name ∉ g.invented counters) :
    Expands (g.hoisted counters).mentioned (g.invented counters)
      ((g.hoisted counters).mentioned name) (g.mentioned name) := by
  have hHoisted := hWell.hoisted counters
  have hNext : ∀ made ∈ (g.harvested counters).synthetic,
      (g.hoisted counters).mentioned made.name = made.body.symbols := by
    intro made hMade
    refine mentioned_eq_symbols hHoisted (mem_declared.2 ⟨mem_rules_hoisted.2 (Or.inr hMade), ?_⟩)
    exact (isMade_of_mem_synthetic hMade).1.isExtra
  cases hFind : g.find? name with
  | some rule =>
      obtain ⟨hRule, rfl⟩ := hWell.find?_eq_some_iff.1 hFind
      obtain ⟨rule', hFind', hKept⟩ := hWell.exists_kept counters hRule
      have hFlag := hKept.isExtra_eq
      rw [mentioned, hFind', mentioned, hFind]
      simp only [hFlag]
      cases hExtra : rule.isExtra with
      | true => exact .nil
      | false =>
          refine (hKept.own hExtra).1.2.expands hNext fun target hTarget hInvented => ?_
          refine notMem_order_of_mem_invented hInvented (hCoherent.mentions_subset ?_)
          exact mem_mentions.2 ⟨rule, mem_declared.2 ⟨hRule, hExtra⟩, hTarget⟩
  | none =>
      -- A name that is neither declared nor made is no rule of the result either.
      have hNone : (g.hoisted counters).find? name = none := by
        cases hFind' : (g.hoisted counters).find? name with
        | none => rfl
        | some rule' =>
            obtain ⟨hRule', rfl⟩ := hHoisted.find?_eq_some_iff.1 hFind'
            rcases mem_rules_hoisted.1 hRule' with hDeclared | hMade
            · obtain ⟨rule, hRule, hKept⟩ := exists_kept_of_mem_declared hDeclared
              have hSome := hWell.find?_eq_some_iff.2 ⟨hRule, hKept.name_eq.symm⟩
              exact absurd (hFind.symm.trans hSome) (by simp)
            · exact absurd (List.mem_map_of_mem hMade) h
      rw [mentioned, hNone, mentioned, hFind]
      exact .nil

/-! ## The order -/

/-- No rule made is on the stack that the traversal starts from. -/
theorem pending_start (hWell : g.WellFormed) (counters : NameCounters) (refs' : References) :
    Pending (g.hoisted counters).mentioned (g.invented counters)
      (if g.root ∈ refs'.nodes then [g.root] else []) [] := by
  refine Pending.start fun name hName hInvented => ?_
  rw [List.mem_ite_nil_right] at hName
  rw [List.mem_singleton.1 hName.2] at hInvented
  exact notMem_order_of_mem_invented hInvented hWell.root_mem

/-- Among the declared names a rule made stands behind its referrer. -/
theorem sublist_names_declared (hCoherent : g.Coherent) {counters : NameCounters} {host : Rule}
    (hHost : host ∈ (g.hoisted counters).declared) {name : Text}
    (hName : name ∈ g.invented counters) (hMentioned : name ∈ host.body.symbols) :
    [host.name, name].Sublist ((g.hoisted counters).declared.map Rule.name) := by
  rw [names_declared_hoisted]
  rw [declared_hoisted] at hHost
  rcases List.mem_append.1 hHost with hOwn | hMade
  · have hNames : names (own (g.harvested counters).declared) = names g.declared :=
      names_own_harvested g.rules ⟨counters, g.order⟩
    have hIn : host.name ∈ names g.declared := by
      rw [← hNames]
      exact List.mem_map_of_mem hOwn
    exact (List.singleton_sublist.2 hIn).append (List.singleton_sublist.2 hName)
  · have hForward : Forward (g.harvested counters).synthetic :=
      harvested_forward g.rules _ fun target hTarget => hCoherent.mentions_subset hTarget
    exact (hForward.sublist hMade hMentioned hName).trans (List.sublist_append_right _ _)

section Order

variable {counters : NameCounters} {refs refs' : References}
  (hWell : g.WellFormed) (hRefs : References.ofGrammar g = .ok refs)
  (hRefs' : References.ofGrammar (g.hoisted counters) = .ok refs')

include hWell hRefs hRefs'

/-- The root is no rule made, and it is a node of both graphs or of neither. -/
theorem root_mem_nodes_hoisted : g.root ∈ refs'.nodes ↔ g.root ∈ refs.nodes := by
  rw [References.mem_nodes_of_ofGrammar hWell hRefs,
    References.mem_nodes_of_ofGrammar (hWell.hoisted counters) hRefs']
  rw [names_declared_hoisted, List.mem_append]
  constructor
  · rintro (hDeclared | hInvented)
    · exact hDeclared
    · exact absurd hWell.root_mem (notMem_order_of_mem_invented hInvented)
  · exact Or.inl

/-- Without the rules made, the root reaches what it reached. -/
theorem reached_hoisted :
    ((g.hoisted counters).reached refs').filter (· ∉ g.invented counters) = g.reached refs := by
  have hCoherent := (References.ofGrammar_eq_ok_iff hWell).1 ⟨refs, hRefs⟩
  have hHoisted := hWell.hoisted counters
  have hStack : Expands (g.hoisted counters).mentioned (g.invented counters)
      (if g.root ∈ refs'.nodes then [g.root] else [])
      (if g.root ∈ refs.nodes then [g.root] else []) := by
    by_cases hRoot : g.root ∈ refs.nodes
    · rw [if_pos hRoot, if_pos ((root_mem_nodes_hoisted hWell hRefs hRefs').2 hRoot)]
      exact .own (fun hInvented => notMem_order_of_mem_invented hInvented hWell.root_mem) .nil
    · rw [if_neg hRoot,
        if_neg fun hRoot' => hRoot ((root_mem_nodes_hoisted hWell hRefs hRefs').1 hRoot')]
      exact .nil
  exact References.visit_spliced (References.successors_of_ofGrammar hWell hRefs)
    (References.successors_of_ofGrammar hHoisted hRefs')
    (oneReferrer_hoisted hWell hCoherent counters)
    (fun name hName => expands_mentioned hWell hCoherent counters hName) hStack
    (pending_start hWell counters refs')

theorem unreached_hoisted :
    ((g.hoisted counters).unreached refs').filter (· ∉ g.invented counters) =
      g.unreached refs := by
  have hReached := reached_hoisted hWell hRefs hRefs'
  have hApart : ∀ name ∈ names g.declared, name ∉ g.invented counters := by
    intro name hName hInvented
    apply notMem_order_of_mem_invented hInvented
    obtain ⟨rule, hRule, rfl⟩ := List.mem_map.1 hName
    exact List.mem_map_of_mem (mem_declared.1 hRule).1
  rw [unreached, names_declared_hoisted, List.filter_filter, List.filter_append, unreached]
  have hMade : (g.invented counters).filter (fun name => decide (name ∉ g.invented counters) &&
      decide (name ∉ (g.hoisted counters).reached refs')) = [] := by
    rw [List.filter_eq_nil_iff]
    intro name hName
    simp [hName]
  rw [hMade, List.append_nil]
  refine List.filter_congr fun name hName => ?_
  rw [← hReached]
  have hOwn := hApart name hName
  simp [hOwn]

/-- Without the rules made, declarations are written in the order of the given grammar. -/
theorem emissionOrder_hoisted :
    ((g.hoisted counters).emissionOrder refs').filter (· ∉ g.invented counters) =
      g.emissionOrder refs := by
  have hExtras : g.extras.filter (· ∉ g.invented counters) = g.extras := by
    rw [List.filter_eq_self]
    intro name hName
    have hOwn : name ∉ g.invented counters := fun hInvented =>
      notMem_order_of_mem_invented hInvented (hWell.extras_subset name hName)
    simpa using hOwn
  rw [emissionOrder, List.filter_append, List.filter_append,
    reached_hoisted hWell hRefs hRefs', unreached_hoisted hWell hRefs hRefs']
  exact congrArg (_ ++ ·) hExtras

/-- A rule made is written after the rule that mentions it. -/
theorem sublist_emissionOrder {host : Rule} (hHost : host ∈ (g.hoisted counters).declared)
    {name : Text} (hName : name ∈ g.invented counters) (hMentioned : name ∈ host.body.symbols) :
    [host.name, name].Sublist ((g.hoisted counters).emissionOrder refs') := by
  have hCoherent := (References.ofGrammar_eq_ok_iff hWell).1 ⟨refs, hRefs⟩
  have hHoisted := hWell.hoisted counters
  have hReferrer := oneReferrer_hoisted hWell hCoherent counters
  have hBy : name ∈ (g.hoisted counters).mentioned host.name := by
    rw [mentioned_eq_symbols hHoisted hHost]
    exact hMentioned
  have hDeclared := sublist_names_declared hCoherent hHost hName hMentioned
  by_cases hReached : name ∈ (g.hoisted counters).reached refs'
  · -- The traversal has visited a referrer before, and there is only one.
    have hLed := References.led_visit (References.successors_of_ofGrammar hHoisted hRefs')
      hReferrer (pending_start hWell counters refs') (fun _ hNone => absurd hNone List.not_mem_nil)
    obtain ⟨other, hOther, hBefore⟩ := hLed name hReached hName
    rw [hReferrer.unique name hName other host.name hOther hBy] at hBefore
    rw [emissionOrder, List.append_assoc]
    exact hBefore.trans (List.sublist_append_left _ _)
  · have hKeep : ∀ other ∈ (g.hoisted counters).declared.map Rule.name,
        other ∉ (g.hoisted counters).reached refs' →
          other ∈ (g.hoisted counters).unreached refs' := by
      intro other hOther hNot
      exact List.mem_filter.2 ⟨hOther, by simpa using hNot⟩
    have hMadeKept := hKeep name (hDeclared.subset (by simp)) hReached
    rw [emissionOrder]
    refine List.Sublist.trans ?_ (List.sublist_append_left _ _)
    by_cases hHostReached : host.name ∈ (g.hoisted counters).reached refs'
    · exact (List.singleton_sublist.2 hHostReached).append (List.singleton_sublist.2 hMadeKept)
    · have hFiltered := hDeclared.filter fun other =>
        decide (other ∉ (g.hoisted counters).reached refs')
      rw [List.filter_cons_of_pos (by simpa using hHostReached),
        List.filter_cons_of_pos (by simpa using hReached), List.filter_nil] at hFiltered
      exact hFiltered.trans (List.sublist_append_right _ _)

end Order

/-- Hoisting does not show in the order. If the references of a grammar are accepted, those of the
hoisted grammar are, its order without the rules that were added is the order of the grammar, and
every rule that was added is mentioned by exactly one rule and stands behind it. Whether there is a
hoisted grammar depends on the names of the rules with nested choices. -/
theorem emission_hoist {name : Text} {rules : List Rule} {root : Option Text}
    {extras : List Text} {g : Grammar} (hBuilt : ofRules name rules root extras = .ok g)
    {refs : References} (hRefs : References.ofGrammar g = .ok refs) (counters : NameCounters) :
    (g.Hoistable → ∃ hoisted refs', g.hoist counters = .ok hoisted ∧
      References.ofGrammar hoisted = .ok refs' ∧
      (hoisted.emissionOrder refs').filter (· ∉ names (g.addedTo hoisted)) =
        g.emissionOrder refs ∧
      ∀ made ∈ g.addedTo hoisted, made.name ∈ hoisted.emissionOrder refs' ∧
        ∃ host ∈ hoisted.rules, made.name ∈ host.body.symbols ∧
          (∀ other ∈ hoisted.rules, made.name ∈ other.body.symbols → other = host) ∧
          (hoisted.emissionOrder refs').idxOf host.name <
            (hoisted.emissionOrder refs').idxOf made.name) ∧
    (¬ g.Hoistable → g.hoist counters = .error .referenceNotUnicode) := by
  refine ⟨fun hHoistable => ?_, fun hNot => hoist_eq_error hNot counters⟩
  have hWell := wellFormed_of_ofRules hBuilt
  have hHoisted := hWell.hoisted counters
  have hCoherent := (References.ofGrammar_eq_ok_iff hWell).1 ⟨refs, hRefs⟩
  obtain ⟨refs', hRefs'⟩ := (References.ofGrammar_eq_ok_iff hHoisted).2
    (hCoherent.hoisted counters)
  have hAdded : g.addedTo (g.hoisted counters) = (g.harvested counters).synthetic :=
    g.addedTo_hoisted counters
  refine ⟨g.hoisted counters, refs', hWell.hoist_eq_ok hHoistable counters, hRefs', ?_, ?_⟩
  · rw [hAdded]
    exact emissionOrder_hoisted hWell hRefs hRefs'
  · rw [hAdded]
    intro made hMade
    have hName : made.name ∈ g.invented counters := List.mem_map_of_mem hMade
    refine ⟨(mem_emissionOrder_iff hHoisted hRefs').2 ?_, ?_⟩
    · exact List.mem_map_of_mem (mem_rules_hoisted.2 (Or.inr hMade))
    · obtain ⟨host, hHost, hMentioned⟩ :=
        mem_mentions.1 (mem_mentions_hoisted_iff.2 (Or.inr hName))
      refine ⟨host, (mem_declared.1 hHost).1, hMentioned, ?_, ?_⟩
      · intro other hOther hOtherMentions
        -- An extra mentions nothing, so the other rule is declared too.
        have hOwn : other.isExtra = false := by
          cases hExtra : other.isExtra with
          | false => rfl
          | true =>
              rw [(hCoherent.hoisted counters).extra_symbols other hOther hExtra]
                at hOtherMentions
              exact absurd hOtherMentions List.not_mem_nil
        exact eq_of_count_mentions_le_one
          (Nat.le_of_eq (count_mentions_hoisted hCoherent hName))
          (mem_declared.2 ⟨hOther, hOwn⟩) hHost hOtherMentions hMentioned
      · exact idxOf_lt_of_sublist (nodup_emissionOrder hHoisted hRefs')
          (sublist_emissionOrder hWell hRefs hRefs' hHost hName hMentioned)

theorem emission_hoist_sample :
    ∃ hoisted refs refs', sample.hoist {} = .ok hoisted ∧
      References.ofGrammar sample = .ok refs ∧ References.ofGrammar hoisted = .ok refs' ∧
      (hoisted.emissionOrder refs').filter (· ∉ names (sample.addedTo hoisted)) =
        sample.emissionOrder refs := by
  have hRefs : References.ofGrammar sample = .ok (References.collect sample).graph := by
    decide +kernel
  obtain ⟨hoisted, refs', hHoisted, hRefs', hOrder, -⟩ :=
    (emission_hoist ofRules_sample hRefs {}).1 hoistable_sample
  exact ⟨hoisted, _, refs', hHoisted, hRefs, hRefs', hOrder⟩

/-- There is a grammar whose references are accepted, and which has no hoisted form. -/
theorem exists_emission_hoist_undefined :
    ∃ g, ofRules "g" [.misnamed] none [] = .ok g ∧ (∃ refs, References.ofGrammar g = .ok refs) ∧
      ∀ hoisted, g.hoist {} ≠ .ok hoisted := by
  refine ⟨misnamed, ofRules_misnamed, ?_, fun _ h => not_hoistable_misnamed (hoistable_of_hoist h)⟩
  exact (References.ofGrammar_eq_ok_iff (wellFormed_of_ofRules ofRules_misnamed)).2
    coherent_misnamed

end Grammar

end TreeTypes

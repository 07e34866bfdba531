import TreeTypes.Proofs.Hoisting.NormalForm

/-!
# What hoisting leaves alone

Hoisting moves choices and touches nothing else. The name, the root and the
extras of the grammar stay, declared rules stay in their places with their
names and flags, and a rule whose body has no nested choice, or that is an
extra, stays altogether. Behind the declared rules stand the rules made, each
with a choice for a body and a name that was not declared.

The references balance. Whatever the bodies mentioned, they mention as often
as before, now spread over more bodies; in addition every rule made is
mentioned, and just once. For the second half nothing may mention a name that
hoisting is still to invent, which is why the bodies have to mention rules
only.

## Main results

* `Hoisting.left_of_flat` — what a step has no work on stays.
* `Grammar.count_mentions_of_mem_order`, `Grammar.count_mentions_of_invented` —
  how often a name is mentioned after hoisting.
* `Grammar.frame_hoist` — all of it together.
-/

namespace TreeTypes

open Hoisting

/-! ## Declared rules -/

namespace Hoisting

/-- Only the body of a declared rule can change. -/
theorem left_eq_with_body (rule : Rule) (s : NameSupply) :
    left rule s = { rule with body := (left rule s).body } := by
  unfold left
  split <;> rfl

/-- What is an extra or has no nested choice stays altogether. -/
theorem left_of_flat {rule : Rule} (s : NameSupply)
    (h : rule.isExtra = true ∨ rule.body.hasNestedChoice = false) : left rule s = rule := by
  unfold left
  cases hExtra : rule.isExtra with
  | true => rw [if_pos rfl]
  | false =>
      rw [if_neg (by simp)]
      exact Rule.hoisted_eq_self_iff.2 (h.resolve_left (by simp [hExtra]))

end Hoisting

namespace Grammar

variable {g : Grammar}

/-- A declared rule is found in its place again. -/
theorem getElem?_rules_hoisted (hWell : g.WellFormed) (counters : NameCounters) {i : Nat}
    {rule : Rule} (h : g.rules[i]? = some rule) :
    (g.hoisted counters).rules[i]? = some (left rule (g.supply counters)) := by
  have hLength : i < (g.rules.map (left · (g.supply counters))).length := by
    rw [List.length_map]
    exact (List.getElem?_eq_some_iff.1 h).1
  rw [rules_hoisted hWell, List.getElem?_append_left hLength, List.getElem?_map, h,
    Option.map_some]

/-- Behind the declared rules stand the rules made. -/
theorem drop_rules_hoisted (g : Grammar) (counters : NameCounters) :
    (g.hoisted counters).rules.drop g.rules.length = (g.harvested counters).synthetic :=
  List.drop_left' (harvested_kept g.rules (g.supply counters)).1.symm

/-! ## Counting references -/

/-- A declared name is mentioned as often as before. -/
theorem count_mentions_of_mem_order (counters : NameCounters) {name : Text} (h : name ∈ g.order) :
    (mentions (g.hoisted counters).declared).count name = (mentions g.declared).count name := by
  have hNew : name ∉ g.invented counters := fun hInvented =>
    notMem_order_of_mem_invented hInvented h
  rw [(g.hoisted_symbols_perm counters).count_eq, List.count_append,
    List.count_eq_zero_of_not_mem hNew, Nat.add_zero]

/-- An invented name that was not mentioned before is mentioned once. -/
theorem count_mentions_of_invented {counters : NameCounters} {name : Text}
    (h : name ∈ g.invented counters) (hNot : name ∉ mentions g.declared) :
    (mentions (g.hoisted counters).declared).count name = 1 := by
  rw [(g.hoisted_symbols_perm counters).count_eq, List.count_append,
    List.count_eq_zero_of_not_mem hNot, List.count_eq_one_of_mem (g.nodup_invented counters) h]

/-- Hoisting leaves the name, the root, the extras and the declared rules alone, but for nested
choices; it adds rules made of choices behind them, under new names; and it neither loses nor
doubles a reference. If the bodies mention rules only, this is so exactly if the names of the rules
with nested choices are made of characters; hoisting fails otherwise. -/
theorem frame_hoist {name : Text} {rules : List Rule} {root : Option Text} {extras : List Text}
    {g : Grammar} (hBuilt : ofRules name rules root extras = .ok g)
    (hClosed : ∀ rule ∈ g.rules, rule.isExtra = false →
      ∀ target ∈ rule.body.symbols, target ∈ g.order)
    (counters : NameCounters) :
    (g.Hoistable → ∃ hoisted, g.hoist counters = .ok hoisted ∧
      (hoisted.name = g.name ∧ hoisted.root = g.root ∧ hoisted.extras = g.extras ∧
        g.order <+: hoisted.order) ∧
      (∀ (i : Nat) (rule : Rule), g.rules[i]? = some rule →
        ∃ rule', hoisted.rules[i]? = some rule' ∧ rule' = { rule with body := rule'.body } ∧
          (rule.isExtra = true ∨ rule.body.hasNestedChoice = false → rule' = rule)) ∧
      (∀ made ∈ hoisted.rules.drop g.rules.length,
        made.synthetic = true ∧ made.isExtra = false ∧ (∃ members, made.body = .choice members) ∧
          made.name ∉ g.order ∧ (mentions hoisted.declared).count made.name = 1) ∧
      ∀ target ∈ g.order,
        (mentions hoisted.declared).count target = (mentions g.declared).count target) ∧
    (¬ g.Hoistable → g.hoist counters = .error .referenceNotUnicode) := by
  have hWell := wellFormed_of_ofRules hBuilt
  refine hWell.hoist_cases counters ⟨⟨rfl, rfl, rfl, ?_⟩, ?_, ?_, ?_⟩
  · rw [order_hoisted]
    exact List.prefix_append _ _
  · intro i rule hRule
    exact ⟨left rule (g.supply counters), getElem?_rules_hoisted hWell counters hRule,
      left_eq_with_body rule _, left_of_flat _⟩
  · intro made hMade
    rw [drop_rules_hoisted] at hMade
    have hIs := (isMade_of_mem_synthetic hMade).1
    have hInvented : made.name ∈ g.invented counters := List.mem_map_of_mem hMade
    have hNew := notMem_order_of_mem_invented hInvented
    refine ⟨hIs.synthetic, hIs.isExtra, hIs.body, hNew, count_mentions_of_invented hInvented ?_⟩
    intro hMentioned
    obtain ⟨rule, hRule, hTarget⟩ := mem_mentions.1 hMentioned
    obtain ⟨hRule, hOwn⟩ := mem_declared.1 hRule
    exact hNew (hClosed rule hRule hOwn made.name hTarget)
  · intro target hTarget
    exact count_mentions_of_mem_order counters hTarget

theorem frame_hoist_sample :
    ∃ hoisted, sample.hoist {} = .ok hoisted ∧ sample.order <+: hoisted.order ∧
      (hoisted.rules.drop 4).length = 4 ∧
      (∀ made ∈ hoisted.rules.drop 4, (mentions hoisted.declared).count made.name = 1) ∧
      (mentions hoisted.declared).count ("item" : Text) =
        (mentions sample.declared).count ("item" : Text) := by
  obtain ⟨hoisted, hHoisted, ⟨-, -, -, hOrder⟩, -, hMade, hDeclared⟩ :=
    (frame_hoist ofRules_sample (by decide) {}).1 hoistable_sample
  have hLength : (sample.hoist {}).map (fun h => (h.rules.drop 4).length) = .ok 4 := by
    decide +kernel
  rw [hHoisted] at hLength
  exact ⟨hoisted, hHoisted, hOrder, Except.ok.inj hLength,
    fun made h => (hMade made h).2.2.2.2, hDeclared ("item" : Text) (by decide)⟩

/-- There is a grammar whose bodies mention rules only, and of which hoisting leaves nothing. -/
theorem exists_frame_hoist_undefined :
    ∃ g, ofRules "g" [.misnamed] none [] = .ok g ∧
      (∀ rule ∈ g.rules, rule.isExtra = false → ∀ target ∈ rule.body.symbols, target ∈ g.order) ∧
      ∀ hoisted, g.hoist {} ≠ .ok hoisted :=
  ⟨misnamed, ofRules_misnamed, by decide,
    fun _ h => not_hoistable_misnamed (hoistable_of_hoist h)⟩

end Grammar

end TreeTypes

import TreeTypes.Proofs.Hoisting.Success

/-!
# Nothing is left to hoist

A rule without a nested choice passes a step as it is, and the step draws no
name. So a grammar in which every rule is an extra or has no nested choice is
its own hoisted form, whatever the counters say, and the counters stay where
they are.

Such a grammar is what hoisting leaves. What a step leaves of a body holds no
choice below its top, and every choice that was taken out passes through a
step of its own before it becomes a rule of the result. Hoisting for a second
time is therefore putting a well-formed grammar together again from its own
rules.

## Main results

* `Rule.hoisted_eq_self_iff` — a step changes exactly the rules with nested
  choices.
* `Grammar.WellFormed.hoist_of_flat` — a grammar without nested choices is its
  own hoisted form.
* `Grammar.hoist_hoist` — hoisting reaches such a grammar and then does
  nothing.
-/

namespace TreeTypes

open Hoisting

/-! ## A step without work -/

namespace Expr

mutual

/-- An expression without choices stays, and no name is drawn. -/
theorem extract_of_containsChoice_eq_false (owner : Text) {e : Expr} (s : NameSupply)
    (h : e.containsChoice = false) : e.extract owner s = ⟨e, [], s⟩ := by
  cases e with
  | choice members => exact absurd h (by simp [containsChoice])
  | sequence members =>
      rw [extract, extractMembers_of_flat owner s h]
  | repetition kind content =>
      rw [extract, extract_of_containsChoice_eq_false owner (e := content) s h]
  | symbol name => rfl
  | terminal kind value => rfl
  | blank => rfl

/-- Members without choices stay, and no name is drawn. -/
theorem extractMembers_of_flat (owner : Text) {members : List Expr} (s : NameSupply)
    (h : membersContainChoice members = false) :
    extractMembers owner members s = ⟨members, [], s⟩ := by
  cases members with
  | nil => rfl
  | cons e rest =>
      rw [membersContainChoice, Bool.or_eq_false_iff] at h
      obtain ⟨hFirst, hOthers⟩ := h
      rw [extractMembers, extract_of_containsChoice_eq_false owner s hFirst]
      simp only
      rw [extractMembers_of_flat owner s hOthers]
      rfl

end

/-- A body without choices below its top stays, and no name is drawn. -/
theorem extractBelow_of_flat (owner : Text) {e : Expr} (s : NameSupply)
    (h : e.hasNestedChoice = false) : e.extractBelow owner s = ⟨e, [], s⟩ := by
  rw [membersContainChoice_children] at h
  cases e with
  | choice members =>
      have hMembers : membersContainChoice members = false := h
      rw [extractBelow, extractMembers_of_flat owner s hMembers]
  | sequence members =>
      have hMembers : membersContainChoice members = false := h
      rw [extractBelow, extractMembers_of_flat owner s hMembers]
  | repetition kind content =>
      have hContent : content.containsChoice = false := by
        rw [children, membersContainChoice, Bool.or_eq_false_iff] at h
        exact h.1
      rw [extractBelow, extract_of_containsChoice_eq_false owner s hContent]
  | symbol name => rfl
  | terminal kind value => rfl
  | blank => rfl

end Expr

/-- A rule without nested choices passes a step as it is, and no name is drawn. -/
theorem Rule.hoisted_of_flat {rule : Rule} (owner : Text) (s : NameSupply)
    (h : rule.body.hasNestedChoice = false) : rule.hoisted owner s = ⟨rule, [], s⟩ := by
  rw [Rule.hoisted, Expr.extractBelow_of_flat owner s h]

/-- A step changes exactly the rules with nested choices. -/
theorem Rule.hoisted_eq_self_iff {rule : Rule} {owner : Text} {s : NameSupply} :
    (rule.hoisted owner s).result = rule ↔ rule.body.hasNestedChoice = false := by
  constructor
  · intro h
    have hFlat := rule.hoisted_hasNestedChoice owner s
    rw [h] at hFlat
    exact hFlat
  · intro h
    rw [Rule.hoisted_of_flat owner s h]

/-! ## A harvest without work -/

/-- Rules that are extras or have no nested choice pass a harvest as they are. -/
theorem Hoisting.harvested_of_flat {rules : List Rule} (s : NameSupply)
    (h : ∀ rule ∈ rules, rule.isExtra = false → rule.body.hasNestedChoice = false) :
    harvested rules s = ⟨rules, [], s⟩ := by
  induction rules with
  | nil => rfl
  | cons rule rest ih =>
      have hRest := ih fun other hOther => h other (List.mem_cons_of_mem _ hOther)
      rw [harvested]
      cases hExtra : rule.isExtra with
      | true => rw [if_pos rfl, hRest]
      | false =>
          rw [if_neg (by simp), Rule.hoisted_of_flat rule.name s (h rule List.mem_cons_self hExtra)]
          simp only [drained_nil, List.nil_append, hRest]

namespace Grammar

variable {g : Grammar}

/-- No rule but an extra has a nested choice. -/
def Flat (g : Grammar) : Prop :=
  ∀ rule ∈ g.rules, rule.isExtra = false → rule.body.hasNestedChoice = false

/-- Where nothing is taken out, nothing has to be referred to. -/
theorem Flat.hoistable (h : g.Flat) : g.Hoistable := by
  rw [hoistable_iff]
  intro rule hRule hOwn hNested
  exact absurd (hNested.symm.trans (h rule hRule hOwn)) (by simp)

/-- A grammar without nested choices is its own hoisted form, and no name is drawn. -/
theorem WellFormed.hoist_of_flat (hWell : g.WellFormed) (hFlat : g.Flat)
    (counters : NameCounters) :
    g.hoist counters = .ok g ∧
      (g.harvest counters).outcome = .ok ⟨g.rules, [], g.supply counters⟩ := by
  have hHarvested : g.harvested counters = ⟨g.rules, [], g.supply counters⟩ :=
    harvested_of_flat (g.supply counters) hFlat
  constructor
  · rw [hWell.hoist_eq_ok hFlat.hoistable, Grammar.hoisted, hHarvested]
    simp only [List.append_nil]
  · rw [outcome_harvest hFlat.hoistable, hHarvested]

/-- Hoisting leaves no nested choice: neither in what is left of the declared rules nor in the
rules made. -/
theorem flat_of_hoisted (g : Grammar) (counters : NameCounters) : (g.hoisted counters).Flat := by
  intro rule' hRule hOwn
  rcases mem_rules_hoisted.1 hRule with hDeclared | hMade
  · obtain ⟨rule, -, hKept⟩ := exists_kept_of_mem_declared hDeclared
    exact (hKept.own (hKept.isExtra_eq.symm.trans hOwn)).2.1
  · exact (isMade_of_mem_synthetic hMade).2.1

/-- Hoisting leaves no nested choice, and does nothing more to what it leaves: the second time it
gives the same grammar, and no name is drawn from the counters that it is given then. It succeeds
exactly if the names of the rules with nested choices are made of characters. -/
theorem hoist_hoist {name : Text} {rules : List Rule} {root : Option Text} {extras : List Text}
    {g : Grammar} (hBuilt : ofRules name rules root extras = .ok g)
    (first second : NameCounters) :
    (g.Hoistable → ∃ hoisted, g.hoist first = .ok hoisted ∧
      (∀ rule ∈ hoisted.rules, rule.isExtra = false → rule.body.hasNestedChoice = false) ∧
      hoisted.hoist second = .ok hoisted ∧
      ∃ h, (hoisted.harvest second).outcome = .ok h ∧ h.supply = ⟨second, hoisted.order⟩) ∧
    (¬ g.Hoistable → g.hoist first = .error .referenceNotUnicode) := by
  have hWell := wellFormed_of_ofRules hBuilt
  have hFlat := g.flat_of_hoisted first
  obtain ⟨hSame, hHarvest⟩ := (hWell.hoisted first).hoist_of_flat hFlat second
  exact hWell.hoist_cases first ⟨hFlat, hSame, _, hHarvest, rfl⟩

theorem hoist_hoist_sample :
    ∃ hoisted, sample.hoist {} = .ok hoisted ∧ hoisted.rules.length = 8 ∧
      hoisted.hoist ⟨[("program", 3)]⟩ = .ok hoisted := by
  obtain ⟨hoisted, hHoisted, -, hAgain, -⟩ :=
    (hoist_hoist ofRules_sample {} ⟨[("program", 3)]⟩).1 hoistable_sample
  have hLength : (sample.hoist {}).map (·.rules.length) = .ok 8 := by decide +kernel
  rw [hHoisted] at hLength
  exact ⟨hoisted, hHoisted, Except.ok.inj hLength, hAgain⟩

/-- There is a grammar that hoisting does not bring into a form without nested choices. -/
theorem exists_hoist_undefined :
    ∃ g, ofRules "g" [.misnamed] none [] = .ok g ∧ ∀ hoisted, g.hoist {} ≠ .ok hoisted :=
  ⟨misnamed, ofRules_misnamed, fun _ h => not_hoistable_misnamed (hoistable_of_hoist h)⟩

end Grammar

end TreeTypes

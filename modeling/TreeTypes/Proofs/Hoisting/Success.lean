import TreeTypes.Proofs.Hoisting.Outcome
import TreeTypes.Proofs.Traced

/-!
# When hoisting succeeds

Hoisting can fail for one reason only. A rule may bear a name that is not made
of characters, but a reference may not, and hoisting refers to every rule that
it makes. The names of those rules begin with the name of their owner, and
what they add to it, an underscore and digits, is made of characters. So it is
the owner's name that decides, together with whether there is anything to
take out; and it decides at the first choice, before anything else can happen.

Everything else that is said about hoisting is said about the results that it
has then: `Rule.hoisted`, `drained`, `harvested`, `Grammar.hoisted`.

## Main definitions

* `Rule.Hoistable`, `Grammar.Hoistable` — the names of owners can be referred
  to where that is necessary.

## Main results

* `Rule.outcome_hoist` — one step.
* `Hoisting.outcome_drain` — the queue of an owner.
* `Hoisting.outcome_harvest` — all rules.
* `Grammar.WellFormed.hoist_cases` — the grammar.
-/

namespace TreeTypes

/-! ## One step -/

/-- The rules that are made of the nested choices of a rule, if there are any, can be referred to
under the name of an owner with a number. -/
def Rule.Hoistable (owner : Text) (rule : Rule) : Prop :=
  rule.body.hasNestedChoice = true → owner.isUnicode = true

instance (owner : Text) (rule : Rule) : Decidable (rule.Hoistable owner) :=
  inferInstanceAs (Decidable (_ → _))

namespace Hoisting

theorem outcome_announce_of_isUnicode (host : Text) {added : List Rule}
    (h : ∀ made ∈ added, made.name.isUnicode = true) : (announce host added).outcome = .ok () := by
  induction added with
  | nil => rfl
  | cons rule rest ih =>
      obtain ⟨hFirst, hRest⟩ := List.forall_mem_cons.1 h
      rw [announce, Traced.outcome_report_bind, if_pos hFirst]
      exact ih hRest

/-- The first name that is not made of characters is the end. -/
theorem outcome_announce_of_not_isUnicode (host : Text) {made : Rule} (rest : List Rule)
    (h : made.name.isUnicode = false) :
    (announce host (made :: rest)).outcome = .error .referenceNotUnicode := by
  rw [announce, Traced.outcome_report_bind, if_neg (by simp [h])]
  rfl

end Hoisting

namespace Rule

variable {rule : Rule} {owner : Text}

/-- The new names are made of characters if the owner's name is. -/
theorem isUnicode_of_mem_hoisted_added {s : NameSupply} {made : Rule}
    (h : made ∈ (rule.hoisted owner s).added) : made.name.isUnicode = owner.isUnicode := by
  have hName : made.name ∈ (s.drawMany owner rule.body.choicesBelow.length).1 := by
    rw [← rule.hoisted_added_names owner s]
    exact List.mem_map_of_mem h
  obtain ⟨k, hNumbered, -⟩ := (NameSupply.mem_drawMany_iff owner _ s _).1 hName
  rw [hNumbered, isUnicode_numberedName]

/-- A step succeeds if the new rules can be referred to. -/
theorem outcome_hoist (h : rule.Hoistable owner) (s : NameSupply) :
    (rule.hoist owner s).outcome = .ok (rule.hoisted owner s) := by
  refine Traced.outcome_bind_of_ok (Hoisting.outcome_announce_of_isUnicode rule.name ?_) _
  intro made hMade
  rw [isUnicode_of_mem_hoisted_added hMade]
  refine h ?_
  by_contra hFlat
  exact List.ne_nil_of_mem hMade (hoisted_added_eq_nil_iff.2 (Bool.eq_false_iff.2 hFlat))

/-- And it fails without a diagnostic otherwise. -/
theorem outcome_hoist_of_not (h : ¬ rule.Hoistable owner) (s : NameSupply) :
    (rule.hoist owner s).outcome = .error .referenceNotUnicode := by
  obtain ⟨hNested, hGarbled⟩ := Classical.not_imp.1 h
  refine Traced.outcome_bind_of_error ?_ _
  cases hAdded : (rule.hoisted owner s).added with
  | nil => exact absurd (hoisted_added_eq_nil_iff.1 hAdded) (by simp [hNested])
  | cons made rest =>
      refine Hoisting.outcome_announce_of_not_isUnicode rule.name rest ?_
      rw [isUnicode_of_mem_hoisted_added (hAdded ▸ List.mem_cons_self)]
      simpa using hGarbled

end Rule

/-! ## All rules -/

namespace Hoisting

/-- The queue of an owner whose name is made of characters is worked off. -/
theorem outcome_drain {owner : Text} (hOwner : owner.isUnicode = true) (queue : List Rule)
    (s : NameSupply) : (drain owner queue s).outcome = .ok (drained owner queue s) := by
  induction queue, s using drained_induction owner with
  | nil s => rw [drain, drained_nil]; rfl
  | cons rule waiting s ih =>
      have hNames : (announce rule.name (rule.hoisted owner s).added).outcome = .ok () :=
        outcome_announce_of_isUnicode rule.name fun made hMade =>
          (Rule.isUnicode_of_mem_hoisted_added hMade).trans hOwner
      rw [drain, drained, Traced.outcome_bind_of_ok hNames, Traced.outcome_bind_of_ok ih]
      rfl

/-- What a step leaves in the queue is worked off, if the step succeeds. -/
theorem outcome_drain_hoisted {rule : Rule} (h : rule.Hoistable rule.name) (s : NameSupply) :
    (drain rule.name (rule.hoisted rule.name s).added (rule.hoisted rule.name s).supply).outcome =
      .ok (drained rule.name (rule.hoisted rule.name s).added
        (rule.hoisted rule.name s).supply) := by
  cases hNested : rule.body.hasNestedChoice with
  | true => exact outcome_drain (h hNested) _ _
  | false =>
      rw [Rule.hoisted_added_eq_nil_iff.2 hNested, drain, drained_nil]
      rfl

/-- Rules are hoisted one after another if the names of those with nested choices are made of
characters, extras aside. -/
theorem outcome_harvest {rules : List Rule} (s : NameSupply)
    (h : ∀ rule ∈ rules, rule.isExtra = false → rule.Hoistable rule.name) :
    (harvest rules s).outcome = .ok (harvested rules s) := by
  induction rules generalizing s with
  | nil => rfl
  | cons rule rest ih =>
      obtain ⟨hFirst, hRest⟩ := List.forall_mem_cons.1 h
      rw [harvest, harvested]
      cases hExtra : rule.isExtra with
      | true =>
          rw [if_pos rfl, if_pos rfl, Traced.outcome_bind_of_ok (ih s hRest)]
          rfl
      | false =>
          rw [if_neg (by simp), if_neg (by simp),
            Traced.outcome_bind_of_ok (Rule.outcome_hoist (hFirst hExtra) s),
            Traced.outcome_bind_of_ok (outcome_drain_hoisted (hFirst hExtra) s),
            Traced.outcome_bind_of_ok (ih _ hRest)]
          rfl

/-- Otherwise the first rule that cannot be hoisted is the end. -/
theorem outcome_harvest_of_not {rules : List Rule} (s : NameSupply)
    (h : ¬ ∀ rule ∈ rules, rule.isExtra = false → rule.Hoistable rule.name) :
    (harvest rules s).outcome = .error .referenceNotUnicode := by
  induction rules generalizing s with
  | nil => exact absurd (by simp) h
  | cons rule rest ih =>
      rw [List.forall_mem_cons, not_and_or] at h
      rw [harvest]
      cases hExtra : rule.isExtra with
      | true =>
          have hRest := h.resolve_left (not_not_intro fun hOwn =>
            absurd (hExtra.symm.trans hOwn) (by simp))
          rw [if_pos rfl, Traced.outcome_bind_of_error (ih s hRest)]
      | false =>
          rw [if_neg (by simp)]
          by_cases hFirst : rule.Hoistable rule.name
          · have hRest := h.resolve_left (not_not_intro fun _ => hFirst)
            rw [Traced.outcome_bind_of_ok (Rule.outcome_hoist hFirst s),
              Traced.outcome_bind_of_ok (outcome_drain_hoisted hFirst s),
              Traced.outcome_bind_of_error (ih _ hRest)]
          · rw [Traced.outcome_bind_of_error (Rule.outcome_hoist_of_not hFirst s)]

end Hoisting

namespace Grammar

variable {g : Grammar}

/-- The names of the declared rules with nested choices are made of characters. -/
def Hoistable (g : Grammar) : Prop := ∀ rule ∈ g.declared, rule.Hoistable rule.name

instance (g : Grammar) : Decidable g.Hoistable := inferInstanceAs (Decidable (∀ rule ∈ _, _))

theorem hoistable_iff :
    g.Hoistable ↔ ∀ rule ∈ g.rules, rule.isExtra = false → rule.Hoistable rule.name := by
  simp only [Hoistable, mem_declared, and_imp]

theorem outcome_harvest (h : g.Hoistable) (counters : NameCounters) :
    (g.harvest counters).outcome = .ok (g.harvested counters) :=
  Hoisting.outcome_harvest _ (hoistable_iff.1 h)

/-- Hoisting succeeds if the names of the rules with nested choices are made of characters. -/
theorem WellFormed.hoist_eq_ok (hWell : g.WellFormed) (h : g.Hoistable) (counters : NameCounters) :
    g.hoist counters = .ok (g.hoisted counters) := by
  rw [hoist, hoistTraced, Traced.outcome_bind_of_ok (outcome_harvest h counters),
    Traced.outcome_report_bind]
  exact hWell.ofRules_harvested counters

/-- And it fails without a diagnostic otherwise. -/
theorem hoist_eq_error (h : ¬ g.Hoistable) (counters : NameCounters) :
    g.hoist counters = .error .referenceNotUnicode := by
  rw [hoistable_iff] at h
  exact Traced.outcome_bind_of_error (Hoisting.outcome_harvest_of_not _ h) _

/-- What is true of the hoisted form of a grammar is true of what hoisting gives, if it succeeds. -/
theorem WellFormed.hoist_cases (hWell : g.WellFormed) (counters : NameCounters)
    {claimed : Grammar → Prop} (h : claimed (g.hoisted counters)) :
    (g.Hoistable → ∃ hoisted, g.hoist counters = .ok hoisted ∧ claimed hoisted) ∧
      (¬ g.Hoistable → g.hoist counters = .error .referenceNotUnicode) :=
  ⟨fun hHoistable => ⟨_, hWell.hoist_eq_ok hHoistable counters, h⟩,
    fun hNot => hoist_eq_error hNot counters⟩

/-- A grammar that is hoisted could be. -/
theorem hoistable_of_hoist {counters : NameCounters} {hoisted : Grammar}
    (h : g.hoist counters = .ok hoisted) : g.Hoistable := by
  by_contra hNot
  rw [hoist_eq_error hNot] at h
  exact absurd h (by simp)

end Grammar

/-! ## A grammar that can be hoisted, and one that cannot -/

theorem Grammar.hoistable_sample : sample.Hoistable := by decide

/-- A rule with a choice nested in its body, under a name that is a lone surrogate. -/
def Rule.misnamed : Rule where
  name := [.surrogate ⟨0, by decide⟩]
  body := .sequence [.choice [.blank, .blank]]

/-- The grammar of a misnamed rule. -/
def Grammar.misnamed : Grammar where
  name := "g"
  root := [.surrogate ⟨0, by decide⟩]
  rules := [.misnamed]
  extras := []

theorem Grammar.ofRules_misnamed : ofRules "g" [.misnamed] none [] = .ok misnamed := by decide

theorem Grammar.valid_misnamed : ∀ rule ∈ misnamed.rules, rule.body.Valid := by
  simp [misnamed, Rule.misnamed, Expr.Valid, Expr.ValidMembers]

theorem Grammar.not_hoistable_misnamed : ¬ misnamed.Hoistable := by decide

end TreeTypes

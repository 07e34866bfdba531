import TreeTypes.Traced

/-!
# Outcomes of steps that report

A step is made of records and an outcome, and the outcome never depends on
the records. The lemmas here take the outcome of a sequence of steps apart:
one failure ends it, and without one the last step decides. Whoever proves
something about a step peels it with these and never opens `andThen`.

The records of a sequence that succeeds are those of its steps in their order.

## Main definitions

* `Traced.Agrees` — same outcome, up to excused failures of the first step.
* `Traced.failure?` — how a step fails.

## Main results

* `Traced.outcome_bind_eq_ok_iff` — when a sequence of two steps succeeds.
* `Traced.outcome_bind_eq_error_iff` — when it fails.
* `Traced.Agrees.bind` — sequences agree if their steps do.
* `Traced.failure?_bind` — how it fails, if the second step always fails alike.
* `Traced.log_bind_of_ok` — the records of a sequence.
-/

namespace TreeTypes

namespace Traced

variable {α β : Type}

theorem outcome_pure_eq_ok_iff {a b : α} : (pure a : Traced α).outcome = .ok b ↔ a = b := by
  show Except.ok a = .ok b ↔ a = b
  rw [Except.ok.injEq]

theorem outcome_pure_ne_error (a : α) (failure : Failure) :
    (pure a : Traced α).outcome ≠ .error failure := by
  show Except.ok a ≠ .error failure
  simp

theorem outcome_bind_of_ok {first : Traced α} {a : α} (h : first.outcome = .ok a)
    (next : α → Traced β) : (first >>= next).outcome = (next a).outcome := by
  show (andThen first next).outcome = _
  unfold andThen
  rw [h]

theorem outcome_bind_of_error {first : Traced α} {failure : Failure}
    (h : first.outcome = .error failure) (next : α → Traced β) :
    (first >>= next).outcome = .error failure := by
  show (andThen first next).outcome = _
  unfold andThen
  rw [h]

/-- Records before a step do not touch its outcome. -/
theorem outcome_report_bind (log : Log) (next : Unit → Traced β) :
    (report log >>= next).outcome = (next ()).outcome := outcome_bind_of_ok rfl next

/-- A sequence of two steps gives what the second gives, if the first succeeds. -/
theorem outcome_bind_eq_ok_iff {first : Traced α} {next : α → Traced β} {b : β} :
    (first >>= next).outcome = .ok b ↔
      ∃ a, first.outcome = .ok a ∧ (next a).outcome = .ok b := by
  cases hFirst : first.outcome with
  | ok a => simp [outcome_bind_of_ok hFirst]
  | error failure => simp [outcome_bind_of_error hFirst]

/-- It fails where one of the two does. -/
theorem outcome_bind_eq_error_iff {first : Traced α} {next : α → Traced β} {failure : Failure} :
    (first >>= next).outcome = .error failure ↔
      first.outcome = .error failure ∨
        ∃ a, first.outcome = .ok a ∧ (next a).outcome = .error failure := by
  cases hFirst : first.outcome with
  | ok a => simp [outcome_bind_of_ok hFirst]
  | error found => simp [outcome_bind_of_error hFirst]

/-- A step that only puts a result into another form adds no failure. -/
theorem outcome_eq_error_of_bind_pure {first : Traced α} {f : α → β} {failure : Failure}
    (h : (first >>= fun a => pure (f a)).outcome = .error failure) :
    first.outcome = .error failure := by
  rcases outcome_bind_eq_error_iff.1 h with hFirst | ⟨a, -, hPure⟩
  · exact hFirst
  · exact absurd hPure (outcome_pure_ne_error (f a) failure)

/-! ## Steps that agree -/

/-- The steps have the same outcome, unless the first one fails in an excused way. -/
def Agrees (excused : Failure → Prop) (first second : Traced α) : Prop :=
  (∀ failure, excused failure → first.outcome ≠ .error failure) → first.outcome = second.outcome

namespace Agrees

variable {excused : Failure → Prop}

theorem refl (step : Traced α) : Agrees excused step step := fun _ => rfl

theorem of_excused {first second : Traced α} {failure : Failure} (h : excused failure)
    (hFails : first.outcome = .error failure) : Agrees excused first second :=
  fun hNone => absurd hFails (hNone failure h)

/-- Records do not matter. -/
theorem of_outcome {first second other : Traced α} (h : Agrees excused first second)
    (hOutcome : other.outcome = first.outcome) : Agrees excused other second := by
  rw [Agrees, hOutcome]
  exact h

theorem bind {first second : Traced α} {next later : α → Traced β}
    (h : Agrees excused first second) (hNext : ∀ a, Agrees excused (next a) (later a)) :
    Agrees excused (first >>= next) (second >>= later) := by
  intro hNone
  have hFirst : first.outcome = second.outcome :=
    h fun failure hExcused hFails => hNone failure hExcused (outcome_bind_of_error hFails next)
  cases hOutcome : first.outcome with
  | ok a =>
      rw [outcome_bind_of_ok hOutcome] at hNone ⊢
      rw [outcome_bind_of_ok (hFirst.symm.trans hOutcome)]
      exact hNext a hNone
  | error failure =>
      rw [outcome_bind_of_error hOutcome, outcome_bind_of_error (hFirst.symm.trans hOutcome)]

end Agrees

/-! ## Failures -/

/-- How a step fails, if it does. -/
def failure? (step : Traced α) : Option Failure :=
  match step.outcome with
  | .ok _ => none
  | .error failure => some failure

theorem failure?_eq_some_iff {step : Traced α} {failure : Failure} :
    step.failure? = some failure ↔ step.outcome = .error failure := by
  unfold failure?
  cases step.outcome <;> simp

theorem failure?_eq_none_iff {step : Traced α} :
    step.failure? = none ↔ ∃ a, step.outcome = .ok a := by
  unfold failure?
  cases step.outcome <;> simp

@[simp] theorem failure?_pure (a : α) : (pure a : Traced α).failure? = none := rfl

/-- The first step fails, or else the second, which here fails alike after every result. -/
theorem failure?_bind {first : Traced α} {next : α → Traced β} {later : Option Failure}
    (h : ∀ a, (next a).failure? = later) : (first >>= next).failure? = first.failure?.or later := by
  cases hFirst : first.outcome with
  | ok a =>
      rw [failure?_eq_none_iff.2 ⟨a, hFirst⟩, Option.none_or, ← h a]
      unfold failure?
      rw [outcome_bind_of_ok hFirst]
  | error failure =>
      rw [failure?_eq_some_iff.2 hFirst, Option.some_or, failure?_eq_some_iff]
      exact outcome_bind_of_error hFirst next

theorem failure?_bind_pure {first : Traced α} (f : α → β) :
    (first >>= fun a => pure (f a)).failure? = first.failure? := by
  rw [failure?_bind fun a => failure?_pure (f a), Option.or_none]

theorem failure?_report_bind (log : Log) (next : Unit → Traced β) :
    (report log >>= next).failure? = (next ()).failure? := by
  unfold failure?
  rw [outcome_report_bind]

/-! ## Records -/

theorem log_bind_of_ok {first : Traced α} {a : α} (h : first.outcome = .ok a)
    (next : α → Traced β) : (first >>= next).log = first.log ++ (next a).log := by
  show (andThen first next).log = _
  unfold andThen
  rw [h]

theorem log_bind_pure {first : Traced α} {a : α} (h : first.outcome = .ok a) (f : α → β) :
    (first >>= fun a => pure (f a)).log = first.log := by
  rw [log_bind_of_ok h]
  exact List.append_nil _

end Traced

end TreeTypes

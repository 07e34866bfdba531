import TreeTypes.Proofs.Hoisting.NormalForm
import TreeTypes.Proofs.TypeDecl.Typing

/-!
# Three ways to meet a nested choice

Whether a choice stands below the top of a body is asked three times, by three
functions that walk the body on their own. The check of the extras looks for a
choice, hoisting takes choices out, and declaring a rule fails on one. Each of
them treats the top in its own way: the check starts with the parts of the
body, hoisting leaves a choice at the top where it is, and declaring makes a
variant of it.

They have to agree. If hoisting passed over a choice that declaring then fails
on, a correct grammar would end in a defect of the program; if the check
overlooked one, an extra would. Hoisting works member by member and remembers
what it took, so its side of the agreement goes through the list of maximal
choices, which is empty exactly if there is no choice at all. On the side of
declaring the body has to be valid, since an empty sequence is another reason
to fail and may come first. Hoisting has a reason of its own to fail: an owner
with a name that no reference may bear.

## Main results

* `TypeDecl.ofRule_eq_error_iff` — declaring fails on nested choices and on
  nothing else.
* `Rule.hasNestedChoice_agreement` — all three together.
* `Rule.exists_nestedChoice_kept` — a nested choice that hoisting does not take
  out.
-/

namespace TreeTypes

/-! ## Declaring -/

namespace TypeExpr

mutual

/-- A valid expression with a choice in it has no type, because of the choice. -/
theorem ofExpr_of_containsChoice (settings : Settings) (rule : Text) {e : Expr} (hValid : e.Valid)
    (h : e.containsChoice = true) : ofExpr settings rule e = .error (choiceFailure rule) := by
  cases e with
  | symbol name => exact absurd h (by simp [Expr.containsChoice])
  | terminal kind value => exact absurd h (by simp [Expr.containsChoice])
  | blank => exact absurd h (by simp [Expr.containsChoice])
  | sequence members => rw [ofExpr, ofMembers_of_containChoice settings rule hValid.2 h]
  | choice members => rfl
  | repetition kind content =>
      rw [ofExpr, ofExpr_of_containsChoice settings rule (e := content) hValid h]

/-- Of valid members with a choice in them the first one with a choice has no type. -/
theorem ofMembers_of_containChoice (settings : Settings) (rule : Text) {members : List Expr}
    (hValid : Expr.ValidMembers members) (h : Expr.membersContainChoice members = true) :
    ofMembers settings rule members = .error (choiceFailure rule) := by
  cases members with
  | nil => exact absurd h (by simp)
  | cons e rest =>
      rw [ofMembers]
      cases hFirst : e.containsChoice with
      | true => rw [ofExpr_of_containsChoice settings rule hValid.1 hFirst]
      | false =>
          rw [Expr.membersContainChoice, hFirst, Bool.false_or] at h
          obtain ⟨item, hItem⟩ := exists_ofExpr settings rule hValid.1 hFirst
          rw [hItem]
          simp only
          rw [ofMembers_of_containChoice settings rule hValid.2 h]

end

end TypeExpr

/-- A valid body with a nested choice has no shape, because of the choice. -/
theorem Shape.ofBody_of_hasNestedChoice (settings : Settings) (rule : Text) {body : Expr}
    (hValid : body.Valid) (h : body.hasNestedChoice = true) :
    ofBody settings rule body = .error (TypeExpr.choiceFailure rule) := by
  rw [Expr.membersContainChoice_children] at h
  cases body with
  | symbol name => exact absurd h (by simp [Expr.children])
  | terminal kind value => exact absurd h (by simp [Expr.children])
  | blank => exact absurd h (by simp [Expr.children])
  | sequence members =>
      rw [ofBody, TypeExpr.ofMembers_of_containChoice settings rule hValid.2 h]
  | choice members =>
      rw [ofBody, TypeExpr.ofMembers_of_containChoice settings rule hValid.2 h]
  | repetition kind content =>
      have hContent : (Expr.repetition kind content).containsChoice = true := by
        simpa [Expr.children, Expr.containsChoice] using h
      rw [ofBody_repetition, TypeExpr.ofExpr_of_containsChoice settings rule hValid hContent]
      rfl

namespace TypeDecl

variable {rule : Rule}

theorem exists_ofRule_iff (hValid : rule.body.Valid) (settings : Settings) :
    (∃ decl, ofRule settings rule = .ok decl) ↔ rule.body.hasNestedChoice = false := by
  rw [ofRule]
  cases hNested : rule.body.hasNestedChoice with
  | true => simp [Shape.ofBody_of_hasNestedChoice settings rule.name hValid hNested]
  | false =>
      obtain ⟨shape, hShape⟩ := Shape.exists_ofBody settings rule.name hValid hNested
      simp [hShape]

/-- Declaring fails on nested choices and on nothing else. -/
theorem ofRule_eq_error_iff (hValid : rule.body.Valid) (settings : Settings) {failure : Failure} :
    ofRule settings rule = .error failure ↔
      rule.body.hasNestedChoice = true ∧ failure = TypeExpr.choiceFailure rule.name := by
  cases hNested : rule.body.hasNestedChoice with
  | true =>
      rw [ofRule, Shape.ofBody_of_hasNestedChoice settings rule.name hValid hNested]
      simp [eq_comm]
  | false =>
      obtain ⟨decl, hDecl⟩ := (exists_ofRule_iff hValid settings).2 hNested
      simp [hDecl]

end TypeDecl

/-! ## All three -/

namespace Rule

/-- The three walks agree on every rule with a valid body. There is a nested choice exactly if
declaring the rule fails for the reason that there is one, at this rule; it does not fail for any
other. Without a nested choice a step of hoisting leaves the rule, the counters and the names in use
as they are. With one it takes something out, and whatever it leaves can be declared, unless the
owner's name holds a surrogate: then it fails, and without a diagnostic. -/
theorem hasNestedChoice_agreement {rule : Rule} (hValid : rule.body.Valid) (settings : Settings)
    (owner : Text) (s : NameSupply) :
    (rule.body.hasNestedChoice = true ↔ ∃ d, TypeDecl.ofRule settings rule = .error (.diagnosed d) ∧
      d.kind = .invariant) ∧
    (∀ failure, TypeDecl.ofRule settings rule = .error failure → failure =
      .diagnosed ⟨.choiceInType, some { rule := some rule.name, construct := some "CHOICE" }⟩) ∧
    (rule.body.hasNestedChoice = false → (rule.hoist owner s).outcome = .ok ⟨rule, [], s⟩) ∧
    (rule.Hoistable owner → ∃ step, (rule.hoist owner s).outcome = .ok step ∧
      (rule.body.hasNestedChoice = true ↔ step.added ≠ []) ∧
      ∃ decl, TypeDecl.ofRule settings step.result = .ok decl) ∧
    (¬ rule.Hoistable owner →
      rule.body.hasNestedChoice = true ∧ owner.isUnicode = false ∧
        (rule.hoist owner s).outcome = .error .referenceNotUnicode) := by
  refine ⟨?_, ?_, ?_, ?_, ?_⟩
  · simp only [TypeDecl.ofRule_eq_error_iff hValid]
    constructor
    · intro hNested
      exact ⟨_, ⟨hNested, rfl⟩, rfl⟩
    · rintro ⟨d, ⟨hNested, -⟩, -⟩
      exact hNested
  · intro failure hFailure
    exact ((TypeDecl.ofRule_eq_error_iff hValid settings).1 hFailure).2
  · intro hFlat
    rw [outcome_hoist (fun hNested => absurd (hFlat.symm.trans hNested) (by simp)),
      hoisted_of_flat owner s hFlat]
  · intro hHoistable
    refine ⟨rule.hoisted owner s, outcome_hoist hHoistable s, ?_, ?_⟩
    · rw [Ne, hoisted_added_eq_nil_iff, Bool.not_eq_false]
    · exact (TypeDecl.exists_ofRule_iff (rule.hoisted_valid owner s hValid).1 settings).2
        (rule.hoisted_hasNestedChoice owner s)
  · intro hNot
    obtain ⟨hNested, hGarbled⟩ := Classical.not_imp.1 hNot
    exact ⟨hNested, by simpa using hGarbled, outcome_hoist_of_not hNot s⟩

/-- A choice of a choice and of a sequence that repeats another one. -/
def branching : Rule where
  name := "item"
  body := .choice [.choice [.blank, .symbol "item"],
    .sequence [.symbol "item", .repetition .oneOrMore (.choice [.terminal .literal "x"])]]

/-- Two choices are taken out of `branching`, as `item_2` and `item_4` if the counter stands at two
and the name between them is in use. -/
theorem hasNestedChoice_agreement_branching :
    branching.body.Valid ∧ branching.body.hasNestedChoice = true ∧
      TypeDecl.ofRule {} branching = .error (.diagnosed
        ⟨.choiceInType, some { rule := some "item", construct := some "CHOICE" }⟩) ∧
      ∃ step, (branching.hoist "item" ⟨⟨[("item", 2)]⟩, ["item", "item_3"]⟩).outcome = .ok step ∧
        step.added.map Rule.name = ["item_2", "item_4"] ∧
        ∃ decl, TypeDecl.ofRule {} step.result = .ok decl := by
  have hValid : branching.body.Valid := by
    have hName : ("item" : Text) ≠ [] := by decide
    simp [branching, Expr.Valid, Expr.ValidMembers, hName]
  obtain ⟨hRefused, hReason, -, hTaken, -⟩ :=
    hasNestedChoice_agreement hValid {} "item" ⟨⟨[("item", 2)]⟩, ["item", "item_3"]⟩
  obtain ⟨step, hStep, hAdded, hDeclared⟩ := hTaken (by decide)
  have hOutcome : (branching.hoist "item" ⟨⟨[("item", 2)]⟩, ["item", "item_3"]⟩).outcome.map
      (·.added.map Rule.name) = .ok ["item_2", "item_4"] := by decide
  rw [hStep] at hOutcome
  have hNames : step.added.map Rule.name = ["item_2", "item_4"] := Except.ok.inj hOutcome
  have hNested : branching.body.hasNestedChoice = true := hAdded.2 fun hNone => by
    rw [hNone] at hNames
    exact absurd hNames (by simp)
  obtain ⟨d, hFailure, -⟩ := hRefused.1 hNested
  rw [hReason _ hFailure] at hFailure
  exact ⟨hValid, hNested, hFailure, step, hStep, hNames, hDeclared⟩

/-- There is a valid rule with a nested choice that a step does not take out. -/
theorem exists_nestedChoice_kept :
    ∃ rule : Rule, rule.body.Valid ∧ rule.body.hasNestedChoice = true ∧
      (rule.hoist rule.name ⟨{}, [rule.name]⟩).outcome = .error .referenceNotUnicode := by
  refine ⟨misnamed, ?_, rfl, outcome_hoist_of_not (by decide) _⟩
  simp [misnamed, Expr.Valid, Expr.ValidMembers]

end Rule

end TreeTypes

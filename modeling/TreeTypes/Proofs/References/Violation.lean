import TreeTypes.Proofs.Expr.Places
import TreeTypes.Proofs.References

/-!
# Which violation is reported

Declared rules mention declared rules, and extras are like terminals. A
grammar can break this in several places at once: two rules can be at fault,
one rule can mention several names that it may not mention, and an extra can
both mention something and hold a choice. One violation is reported, and this
file says which.

`Offends` is what a single rule does wrong, with the diagnostic for it. It has
one constructor for each sort of offence and does not speak of the walk. The
walk reports the offence of the first rule that offends
(`ofGrammar_failure`); no rule offends exactly if no symbol and no choice
stands where it may not stand.

## Main definitions

* `References.Offends` — a rule breaks the rules of reference.

## Main results

* `References.ruleViolation_eq_some_iff` — a rule is stopped at for an offence.
* `References.ofGrammar_failure` — when there is no graph, and what is reported.
-/

namespace TreeTypes

namespace Location

theorem given_some {t : Text} (h : t ≠ []) : given (some t) = some t := by
  cases t with
  | nil => exact absurd rfl h
  | cons p rest => rfl

/-- A location with a rule and without a file begins with the rule. -/
theorem exists_text_eq {l : Location} {rule : Text} (hRule : l.rule = some rule)
    (hName : rule ≠ []) (hSource : l.source = none) :
    ∃ rest, l.text = Text.concat ["rule '", rule, "'"] ++ rest := by
  have hPlace : Text.join ": " [Text.concat ["rule '", rule, "'"]] =
      Text.concat ["rule '", rule, "'"] := by
    simp [Text.join]
  unfold text
  rw [hRule, hSource, given_some hName]
  simp only [Option.map_none, Option.map_some, Option.toList_none, Option.toList_some,
    List.nil_append, hPlace]
  split
  · exact ⟨[], (List.append_nil _).symm⟩
  · exact ⟨_, List.flatten_cons⟩

end Location

namespace References

variable {g : Grammar} {rule : Rule} {d : Diagnostic}

/-! ## Offences -/

/-- A rule breaks the rules of reference, and this is how it is reported. Of the symbols in the
body of a declared rule the first that may not stand there decides, and the first symbol of an extra
before any choice in it. -/
inductive Offends (g : Grammar) (rule : Rule) : Diagnostic → Prop
  | undefined {before later : List Text} {target : Text} (hOwn : rule.isExtra = false)
      (hSymbols : rule.body.symbols = before ++ target :: later)
      (hBefore : ∀ earlier ∈ before, earlier ∈ g.order ∧ earlier ∉ g.extras)
      (hTarget : target ∉ g.order) :
      Offends g rule (.undefinedRule target (some rule.name) none)
  | toExtra {before later : List Text} {target : Text} (hOwn : rule.isExtra = false)
      (hSymbols : rule.body.symbols = before ++ target :: later)
      (hBefore : ∀ earlier ∈ before, earlier ∈ g.order ∧ earlier ∉ g.extras)
      (hTarget : target ∈ g.extras) :
      Offends g rule
        (.unsupported "extra reference" (some rule.name) none (.referenceToExtra target))
  | fromExtra {target : Text} {later : List Text} (hExtra : rule.isExtra = true)
      (hSymbols : rule.body.symbols = target :: later) :
      Offends g rule
        (.unsupported "extra reference" (some rule.name) none (.referenceFromExtra target))
  | choiceInExtra {position : Position} {members : List Expr} (hExtra : rule.isExtra = true)
      (hSymbols : rule.body.symbols = []) (hBelow : position ≠ [])
      (hPart : rule.body.part? position = some (.choice members)) :
      Offends g rule (.unsupported "CHOICE" (some rule.name) none .choiceInExtra)

/-- The walk stops at a rule for an offence, and reports it. -/
theorem ruleViolation_eq_some_iff (hWell : g.WellFormed) {failure : Failure} :
    ruleViolation g rule = some failure ↔ ∃ d, Offends g rule d ∧ failure = .diagnosed d := by
  rw [ruleViolation]
  constructor
  · intro h
    split at h
    · rename_i hExtra
      rcases extraViolation_eq_some_iff.1 h with ⟨target, later, hSymbols, rfl⟩ |
        ⟨hSymbols, hNested, rfl⟩
      · exact ⟨_, .fromExtra hExtra hSymbols, rfl⟩
      · obtain ⟨position, members, hBelow, hPart⟩ := Expr.hasNestedChoice_iff.1 hNested
        exact ⟨_, .choiceInExtra hExtra hSymbols hBelow hPart, rfl⟩
    · rename_i hOwn
      obtain ⟨before, target, later, hSymbols, hViolation, hBefore⟩ :=
        List.findSome?_eq_some_iff.1 h
      have hOwn : rule.isExtra = false := by simpa using hOwn
      have hAllowed : ∀ earlier ∈ before, earlier ∈ g.order ∧ earlier ∉ g.extras :=
        fun earlier hEarlier => violation_eq_none_iff.1 (hBefore earlier hEarlier)
      rcases violation_eq_some_iff.1 hViolation with ⟨hTarget, rfl⟩ | ⟨-, hTarget, rfl⟩
      · exact ⟨_, .undefined hOwn hSymbols hAllowed hTarget, rfl⟩
      · exact ⟨_, .toExtra hOwn hSymbols hAllowed hTarget, rfl⟩
  · rintro ⟨d, hOffends, rfl⟩
    -- Both offences of a declared rule stand at the first symbol that is not allowed.
    have hFirst : ∀ {before later : List Text} {target : Text},
        rule.body.symbols = before ++ target :: later →
        (∀ earlier ∈ before, earlier ∈ g.order ∧ earlier ∉ g.extras) →
        violation g rule.name target = some (.diagnosed d) →
          rule.body.symbols.findSome? (violation g rule.name) = some (.diagnosed d) := by
      intro before later target hSymbols hBefore hViolation
      exact List.findSome?_eq_some_iff.2 ⟨before, target, later, hSymbols, hViolation,
        fun earlier hEarlier => violation_eq_none_iff.2 (hBefore earlier hEarlier)⟩
    cases hOffends with
    | undefined hOwn hSymbols hBefore hTarget =>
        rw [if_neg (by simp [hOwn])]
        exact hFirst hSymbols hBefore (violation_eq_some_iff.2 (Or.inl ⟨hTarget, rfl⟩))
    | toExtra hOwn hSymbols hBefore hTarget =>
        rw [if_neg (by simp [hOwn])]
        exact hFirst hSymbols hBefore (violation_eq_some_iff.2
          (Or.inr ⟨hWell.extras_subset _ hTarget, hTarget, rfl⟩))
    | fromExtra hExtra hSymbols =>
        rw [if_pos hExtra]
        exact extraViolation_eq_some_iff.2 (Or.inl ⟨_, _, hSymbols, rfl⟩)
    | choiceInExtra hExtra hSymbols hBelow hPart =>
        rw [if_pos hExtra]
        have hNested := Expr.hasNestedChoice_iff.2 ⟨_, _, hBelow, hPart⟩
        exact extraViolation_eq_some_iff.2 (Or.inr ⟨hSymbols, hNested, rfl⟩)

theorem ruleViolation_eq_none_iff (hWell : g.WellFormed) :
    ruleViolation g rule = none ↔ ∀ d, ¬ Offends g rule d := by
  simp only [Option.eq_none_iff_forall_ne_some, Ne, ruleViolation_eq_some_iff hWell]
  constructor
  · exact fun h d hOffends => h _ ⟨d, hOffends, rfl⟩
  · rintro h failure ⟨d, hOffends, -⟩
    exact h d hOffends

/-! ## What an offence is called -/

/-- A diagnostic is about a rule, and its text begins with the name of the rule. -/
def Names (d : Diagnostic) (rule : Text) : Prop :=
  (∃ l, d.location = some l ∧ l.rule = some rule) ∧
    ∃ rest, d.message = Text.concat ["rule '", rule, "'"] ++ rest

theorem names_of_location {l : Location} {rule : Text} (hLocation : d.location = some l)
    (hRule : l.rule = some rule) (hName : rule ≠ []) (hSource : l.source = none) :
    Names d rule := by
  obtain ⟨rest, hText⟩ := Location.exists_text_eq hRule hName hSource
  refine ⟨⟨l, hLocation, hRule⟩, rest ++ Text.concat [": ", d.cause.message], ?_⟩
  rw [Diagnostic.message, hLocation, Location.introduce, ← List.append_assoc, ← hText]
  rfl

/-- Every offence is reported with the name of the rule, if it has one. -/
theorem Offends.names (h : Offends g rule d) (hName : rule.name ≠ []) : Names d rule.name := by
  cases h with
  | undefined hOwn hSymbols hBefore hTarget =>
      refine names_of_location (l := { rule := some rule.name }) ?_ rfl hName rfl
      rw [Diagnostic.undefinedRule, Location.given_some hName]
      rfl
  | _ => exact names_of_location rfl rfl hName rfl

/-- Only a name that refers to no rule is an unknown reference. -/
theorem Offends.kind (h : Offends g rule d) :
    (d.kind = .unknownReference ∧ ∃ target, d.cause = .undefinedRule target) ∨
      (d.kind = .unsupported ∧ ∀ target, d.cause ≠ .undefinedRule target) := by
  cases h with
  | undefined hOwn hSymbols hBefore hTarget =>
      have hCause := Diagnostic.cause_undefinedRule
      exact Or.inl ⟨congrArg Cause.kind (hCause _ _ _), _, hCause _ _ _⟩
  | _ => exact Or.inr ⟨rfl, by simp [Diagnostic.unsupported]⟩

/-! ## When there is no graph -/

/-- A declared rule mentions something that it may not mention. -/
theorem exists_symbol_iff :
    (∃ position target, rule.body.part? position = some (.symbol target) ∧
      (target ∉ g.order ∨ target ∈ g.extras)) ↔
      ¬ ∀ target ∈ rule.body.symbols, target ∈ g.order ∧ target ∉ g.extras := by
  constructor
  · rintro ⟨position, target, hPart, hTarget⟩ hAll
    have hAllowed := hAll target (Expr.mem_symbols_iff.2 ⟨position, hPart⟩)
    exact hTarget.elim (fun hUndefined => hUndefined hAllowed.1) hAllowed.2
  · intro hSome
    simp only [not_forall, not_and_or, not_not] at hSome
    obtain ⟨target, hSymbol, hTarget⟩ := hSome
    obtain ⟨position, hPart⟩ := Expr.mem_symbols_iff.1 hSymbol
    exact ⟨position, target, hPart, hTarget⟩

/-- An extra is unlike a terminal. -/
theorem exists_part_iff :
    ((∃ position target, rule.body.part? position = some (.symbol target)) ∨
      ∃ position members, position ≠ [] ∧ rule.body.part? position = some (.choice members)) ↔
      ¬ (rule.body.symbols = [] ∧ rule.body.hasNestedChoice = false) := by
  rw [not_and_or, ← Expr.hasNestedChoice_iff, Bool.not_eq_false, exists_comm,
    List.eq_nil_iff_forall_not_mem, not_forall_not]
  simp only [← Expr.mem_symbols_iff]

/-- A grammar is not coherent if a symbol or a choice stands where it may not stand. -/
theorem not_coherent_iff (hWell : g.WellFormed) :
    ¬ g.Coherent ↔
      (∃ rule ∈ g.declared, ∃ position target,
        rule.body.part? position = some (.symbol target) ∧
          (target ∉ g.order ∨ target ∈ g.extras)) ∨
      ∃ rule ∈ g.rules, rule.isExtra = true ∧
        ((∃ position target, rule.body.part? position = some (.symbol target)) ∨
          ∃ position members, position ≠ [] ∧
            rule.body.part? position = some (.choice members)) := by
  have hCoherent : g.Coherent ↔
      (∀ rule ∈ g.declared, ∀ target ∈ rule.body.symbols,
        target ∈ g.order ∧ target ∉ g.extras) ∧
      ∀ rule ∈ g.rules, rule.isExtra = true →
        rule.body.symbols = [] ∧ rule.body.hasNestedChoice = false := by
    simp only [← hWell.mem_declared_names]
    exact ⟨fun h => ⟨h.closed, fun rule hRule hExtra =>
      ⟨h.extra_symbols rule hRule hExtra, h.extra_flat rule hRule hExtra⟩⟩,
      fun h => ⟨h.1, fun rule hRule hExtra => (h.2 rule hRule hExtra).1,
        fun rule hRule hExtra => (h.2 rule hRule hExtra).2⟩⟩
  simp only [exists_symbol_iff, exists_part_iff, hCoherent, not_and_or, not_forall, exists_prop]

/-- When a grammar has no graph, and what is reported then. There is none exactly if a declared
rule holds, anywhere in its body, a symbol that is no rule or an extra, or an extra holds a symbol
anywhere or a choice below the top. What is reported is the offence of the first rule, in
declaration order, that offends, and it is called what it is. -/
theorem ofGrammar_failure {name : Text} {rules : List Rule} {root : Option Text}
    {extras : List Text} (hBuilt : Grammar.ofRules name rules root extras = .ok g) :
    ((∃ failure, ofGrammar g = .error failure) ↔
      (∃ rule ∈ g.declared, ∃ position target,
        rule.body.part? position = some (.symbol target) ∧
          (target ∉ g.order ∨ target ∈ g.extras)) ∨
      ∃ rule ∈ g.rules, rule.isExtra = true ∧
        ((∃ position target, rule.body.part? position = some (.symbol target)) ∨
          ∃ position members, position ≠ [] ∧
            rule.body.part? position = some (.choice members))) ∧
    (∀ failure, ofGrammar g = .error failure ↔
      ∃ before rule later d, g.rules = before ++ rule :: later ∧
        (∀ earlier ∈ before, ∀ other, ¬ Offends g earlier other) ∧
        Offends g rule d ∧ failure = .diagnosed d) ∧
    ∀ rule d, Offends g rule d →
      ((d.kind = .unknownReference ∧ ∃ target, d.cause = .undefinedRule target) ∨
        (d.kind = .unsupported ∧ ∀ target, d.cause ≠ .undefinedRule target)) ∧
      (rule.name ≠ [] → Names d rule.name) := by
  have hWell := Grammar.wellFormed_of_ofRules hBuilt
  refine ⟨?_, ?_, fun rule d hOffends => ⟨hOffends.kind, hOffends.names⟩⟩
  · rw [← not_coherent_iff hWell, ← ofGrammar_eq_ok_iff hWell]
    cases ofGrammar g <;> simp
  · intro failure
    rw [ofGrammar_eq_error_iff, List.findSome?_eq_some_iff]
    simp only [ruleViolation_eq_some_iff hWell, ruleViolation_eq_none_iff hWell]
    constructor
    · rintro ⟨before, rule, later, hRules, ⟨d, hOffends, hFailure⟩, hBefore⟩
      exact ⟨before, rule, later, d, hRules, hBefore, hOffends, hFailure⟩
    · rintro ⟨before, rule, later, d, hRules, hBefore, hOffends, hFailure⟩
      exact ⟨before, rule, later, hRules, ⟨d, hOffends, hFailure⟩, hBefore⟩

end References

/-- A rule that mentions an extra and then a name of no rule, after one without a fault. The extra
mentions something too. -/
def Grammar.clashing : Grammar where
  name := "clashing"
  root := "start"
  rules := [
    { name := "start", body := .symbol "item" },
    { name := "item", body := .sequence [.symbol "start",
      .choice [.symbol "comment", .symbol "missing"]] },
    { name := "comment", body := .symbol "missing", isExtra := true }]
  extras := ["comment"]

theorem Grammar.ofRules_clashing :
    Grammar.ofRules "clashing" Grammar.clashing.rules none ["comment"] = .ok .clashing := by
  decide

namespace References

/-- Of the faults of two rules the first of the first of them is reported. -/
theorem ofGrammar_failure_clashing :
    (∃ failure, ofGrammar .clashing = .error failure) ∧
      ofGrammar .clashing = .error (.diagnosed
        (.unsupported "extra reference" (some "item") none (.referenceToExtra "comment"))) := by
  obtain ⟨hFails, hFirst, -⟩ := ofGrammar_failure Grammar.ofRules_clashing
  have hExtra : ∃ rule ∈ Grammar.clashing.rules, rule.isExtra = true ∧
      ((∃ position target, rule.body.part? position = some (.symbol target)) ∨
        ∃ position members, position ≠ [] ∧
          rule.body.part? position = some (.choice members)) :=
    ⟨Grammar.clashing.rules[2], by decide, rfl, Or.inl ⟨[], "missing", rfl⟩⟩
  have hStart : ∀ other, ¬ Offends .clashing Grammar.clashing.rules[0] other :=
    (ruleViolation_eq_none_iff (Grammar.wellFormed_of_ofRules Grammar.ofRules_clashing)).1
      (by decide)
  have hItem : Offends .clashing Grammar.clashing.rules[1]
      (.unsupported "extra reference" (some "item") none (.referenceToExtra "comment")) :=
    @Offends.toExtra _ _ ["start"] ["missing"] _ rfl rfl (by decide) (by decide)
  exact ⟨hFails.2 (Or.inr hExtra),
    (hFirst _).2 ⟨[_], _, [_], _, rfl, List.forall_mem_singleton.2 hStart, hItem, rfl⟩⟩

end References

end TreeTypes

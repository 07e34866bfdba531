import TreeTypes.Proofs.Grammar.Built

/-!
# How the steps of reading a document fail

A document may hold anything anywhere, and reading it asks for one thing after
another: a name, rules, no external tokens, extras that are rules, and bodies
that can be decoded. Each step is taken here by itself: whether what it finds
wrong is reported, with one of three sorts of diagnostics, so that whoever runs
the program learns what to change.

Two steps can fail before they can say why. Before external tokens are refused
their names are listed for the message, and the listing takes the tokens as
they come: a number has no parts to go through, and a token's name may be
something else than a text. `Document.Listable` says when the listing works.
And a rule body whose tag is no text is refused with that tag, which cannot be
shown if it holds too long an integer; `Document.StopsUnshown` says when a
body is the first that is not decoded, and for that reason.

## Main definitions

* `Failure.IsReport` — a failure that says what is wrong with a document.
* `Document.HasNameAndRules`, `Document.Listable`, `Document.StopsUnshown`

## Main results

* `Document.refuseExternals_cases` — how external tokens are refused.
* `Document.isReport_or_of_decodeRules` — how the bodies are refused.
-/

namespace TreeTypes

/-- A failure that says what is wrong with a document: it is malformed, it uses something that is
not modelled, or a name in it refers to no rule. -/
def Failure.IsReport (failure : Failure) : Prop :=
  ∃ d, failure = .diagnosed d ∧
    (d.kind = .decode ∨ d.kind = .unsupported ∨ d.kind = .unknownReference)

theorem Failure.IsRefusal.isReport {failure : Failure} (h : failure.IsRefusal) :
    failure.IsReport := by
  obtain ⟨d, rfl, hKind⟩ := h
  exact ⟨d, rfl, hKind.imp_right Or.inl⟩

/-! ## The members of a document -/

namespace Document

open Datum (lookup)

/-- The members of the object that a document is, or that its text stands for. -/
def members? : Datum → Option (List (Text × Datum))
  | .object members => some members
  | .text text =>
    match Json.read text with
    | .ok (.object members) => some members
    | _ => none
  | _ => none

/-- There is a name that is not empty, and there is a rule. -/
structure HasNameAndRules (members : List (Text × Datum)) : Prop where
  name : ∃ name, lookup "name" members = some (.text name) ∧ name ≠ []
  rules : ∃ rules, lookup "rules" members = some (.object rules) ∧ rules ≠ []

theorem nonEmptyText?_eq_some_iff {key : Text} {members : List (Text × Datum)} {t : Text} :
    nonEmptyText? key members = some t ↔ lookup key members = some (.text t) ∧ t ≠ [] := by
  unfold nonEmptyText?
  split
  · rename_i p rest hFound
    rw [hFound]
    constructor
    · intro h
      rw [← Option.some.inj h]
      exact ⟨rfl, by simp⟩
    · rintro ⟨h, -⟩
      rw [Datum.text.inj (Option.some.inj h)]
  · rename_i hNone
    constructor
    · intro h
      exact absurd h (by simp)
    · rintro ⟨h, hNonempty⟩
      cases t with
      | nil => exact absurd rfl hNonempty
      | cons p rest => exact absurd h (hNone p rest)

/-! ## External tokens -/

/-- The names of external tokens can be listed: they are in a list whose objects have texts for
names, if they have names, or in something else that has parts. -/
def Listable : Datum → Prop
  | .array items => ∀ members name, .object members ∈ items → lookup "name" members = some name →
      ∃ t, name = .text t
  | .text _ => True
  | .object _ => True
  | _ => False

theorem exists_requireTexts_iff (index : Nat) {data : List Datum} :
    (∃ names, requireTexts index data = .ok names) ↔ ∀ datum ∈ data, ∃ t, datum = .text t := by
  induction data generalizing index with
  | nil => simp [requireTexts]
  | cons datum rest ih =>
      rw [List.forall_mem_cons, ← ih (index + 1)]
      cases datum with
      | text t =>
          rw [requireTexts]
          cases requireTexts (index + 1) rest <;> simp [Except.map]
      | _ => simp [requireTexts]

theorem eq_nameNotText_of_requireTexts {index : Nat} {data : List Datum} {failure : Failure}
    (h : requireTexts index data = .error failure) :
    ∃ position found, failure = .nameNotText position found := by
  induction data generalizing index with
  | nil => exact absurd h (by simp [requireTexts])
  | cons datum rest ih =>
      cases datum with
      | text t =>
          rw [requireTexts] at h
          cases hRest : requireTexts (index + 1) rest with
          | ok names =>
              rw [hRest] at h
              exact absurd h (by simp [Except.map])
          | error found =>
              rw [hRest] at h
              rw [Except.error.inj h] at hRest
              exact ih hRest
      | _ => exact ⟨index, _, (Except.error.inj h).symm⟩

/-- Every entry has a text for a name, or none. -/
theorem forall_externalEntries_iff {items : List Datum} :
    (∀ datum ∈ externalEntries items, ∃ t, datum = .text t) ↔ Listable (.array items) := by
  simp only [externalEntries, List.mem_filterMap, Listable]
  constructor
  · intro h members name hItem hName
    exact h name ⟨.object members, hItem, by simp [hName]⟩
  · rintro h datum ⟨item, hItem, hEntry⟩
    cases item with
    | object members =>
        rw [← Option.some.inj hEntry]
        cases hName : lookup "name" members with
        | none => exact ⟨_, rfl⟩
        | some name => exact h members name hItem hName
    | _ => exact absurd hEntry (by simp)

theorem exists_externalNames_iff {externals : Datum} :
    (∃ names, externalNames externals = .ok names) ↔ Listable externals := by
  cases externals with
  | array items => exact (exists_requireTexts_iff 0).trans forall_externalEntries_iff
  | _ => simp [externalNames, Listable]

/-- What goes wrong in the listing is not reported. -/
theorem not_isReport_of_externalNames {externals : Datum} {failure : Failure}
    (h : externalNames externals = .error failure) : ¬ failure.IsReport := by
  rintro ⟨d, rfl, -⟩
  cases externals with
  | array items =>
      obtain ⟨position, found, hEq⟩ := eq_nameNotText_of_requireTexts h
      exact absurd hEq (by simp)
  | _ => exact absurd h (by simp [externalNames])

/-- How the external tokens are refused: not at all if there are none, and otherwise with a report
exactly if their names can be listed. -/
theorem refuseExternals_cases (source : Option FilePath) (externals : Datum) :
    (externals.isVacuous = true ∧ refuseExternals source externals = .ok ()) ∨
    (externals.isVacuous = false ∧ Listable externals ∧
      ∃ d, refuseExternals source externals = .error (.diagnosed d) ∧ d.kind = .unsupported) ∨
    (externals.isVacuous = false ∧ ¬ Listable externals ∧
      ∃ failure, refuseExternals source externals = .error failure ∧ ¬ failure.IsReport) := by
  rw [refuseExternals]
  cases hVacuous : externals.isVacuous with
  | true => exact Or.inl ⟨rfl, rfl⟩
  | false =>
      refine Or.inr ?_
      rw [← exists_externalNames_iff]
      cases hNames : externalNames externals with
      | ok names => exact Or.inl ⟨rfl, ⟨names, rfl⟩, _, rfl, rfl⟩
      | error failure =>
          exact Or.inr ⟨rfl, by simp, failure, rfl, not_isReport_of_externalNames hNames⟩

/-! ## The other members -/

theorem isReport_of_extraNamesFrom {source : Option FilePath} {found : List Text}
    {entries : List Datum} {failure : Failure}
    (h : (extraNamesFrom source found entries).outcome = .error failure) : failure.IsReport := by
  induction entries generalizing found with
  | nil => exact absurd h (Traced.outcome_pure_ne_error found failure)
  | cons entry rest ih =>
      have hPassOver : (do
          Traced.report [passingOver entry]
          extraNamesFrom source found rest).outcome = .error failure → failure.IsReport := by
        rw [Traced.outcome_report_bind]
        exact ih
      unfold extraNamesFrom at h
      split at h
      · split at h
        · split at h
          · split at h
            · exact ih h
            · rw [← Except.error.inj h]
              exact ⟨_, rfl, Or.inl rfl⟩
          · exact hPassOver h
        · exact hPassOver h
      · exact hPassOver h

theorem isReport_of_extraNames {source : Option FilePath} {extras : Datum} {failure : Failure}
    (h : (extraNames source extras).outcome = .error failure) : failure.IsReport := by
  unfold extraNames at h
  split at h
  · exact isReport_of_extraNamesFrom h
  · rw [← Except.error.inj h]
    exact ⟨_, rfl, Or.inl rfl⟩

theorem isReport_of_requireDefined {source : Option FilePath} {rules : List (Text × Datum)}
    {extras : List Text} {failure : Failure}
    (h : requireDefined source rules extras = .error failure) : failure.IsReport := by
  induction extras with
  | nil => exact absurd h (by simp [requireDefined])
  | cons name rest ih =>
      rw [requireDefined] at h
      split at h
      · exact ih h
      · rw [← Except.error.inj h]
        exact ⟨_, rfl, Or.inr (Or.inr rfl)⟩

/-! ## Rule bodies -/

section Bodies

variable [Nesting] (settings : Settings) (source : Option FilePath)

/-- The scan of the first body that is not decoded stops at a tag that cannot be shown. -/
def StopsUnshown (nodes : List (Text × Datum)) : Prop :=
  ∃ before node later, nodes = before ++ node :: later ∧
    (∀ earlier ∈ before, ∃ body,
      (Expr.decode ⟨settings, earlier.1, source⟩ earlier.2).outcome = .ok body) ∧
    Body.StopsUnshown ⟨settings, node.1, source⟩ node.2

variable {settings : Settings} {source : Option FilePath}

/-- The first entry whose node cannot be decoded is reported. -/
theorem decodeRules_eq_error {extras : List Text} {before later : List (Text × Datum)}
    {node : Text × Datum} {failure : Failure}
    (hBefore : ∀ earlier ∈ before, ∃ body,
      (Expr.decode ⟨settings, earlier.1, source⟩ earlier.2).outcome = .ok body)
    (hNode : (Expr.decode ⟨settings, node.1, source⟩ node.2).outcome = .error failure) :
    (decodeRules settings source extras (before ++ node :: later)).outcome = .error failure := by
  induction before with
  | nil => exact Traced.outcome_bind_of_error hNode _
  | cons earlier rest ih =>
      obtain ⟨⟨body, hBody⟩, hRest⟩ := List.forall_mem_cons.1 hBefore
      rw [List.cons_append, decodeRules, Traced.outcome_bind_of_ok hBody]
      exact Traced.outcome_bind_of_error (ih hRest) _

/-- A failure is that of the first body that is not decoded. -/
theorem exists_of_decodeRules {extras : List Text} {nodes : List (Text × Datum)}
    {failure : Failure}
    (h : (decodeRules settings source extras nodes).outcome = .error failure) :
    ∃ before node later, nodes = before ++ node :: later ∧
      (∀ earlier ∈ before, ∃ body,
        (Expr.decode ⟨settings, earlier.1, source⟩ earlier.2).outcome = .ok body) ∧
      (Expr.decode ⟨settings, node.1, source⟩ node.2).outcome = .error failure := by
  induction nodes with
  | nil => exact absurd h (Traced.outcome_pure_ne_error [] failure)
  | cons node rest ih =>
      rcases Traced.outcome_bind_eq_error_iff.1 h with hBody | ⟨body, hBody, hRest⟩
      · exact ⟨[], node, rest, rfl, List.forall_mem_nil _, hBody⟩
      · obtain ⟨before, stop, later, rfl, hBefore, hStop⟩ :=
          ih (Traced.outcome_eq_error_of_bind_pure hRest)
        exact ⟨node :: before, stop, later, rfl,
          List.forall_mem_cons.2 ⟨⟨body, hBody⟩, hBefore⟩, hStop⟩

/-- Bodies are refused with a report, unless the first that is not decoded has a tag that cannot
be shown. -/
theorem isReport_or_of_decodeRules {extras : List Text} {nodes : List (Text × Datum)}
    {failure : Failure}
    (h : (decodeRules settings source extras nodes).outcome = .error failure) :
    failure.IsReport ∨ StopsUnshown settings source nodes := by
  obtain ⟨before, node, later, hNodes, hBefore, hNode⟩ := exists_of_decodeRules h
  rcases Expr.isRefusal_or_of_decode hNode with hRefusal | ⟨-, hStops⟩
  · exact .inl hRefusal.isReport
  · exact .inr ⟨before, node, later, hNodes, hBefore, hStops⟩

theorem outcome_decodeRules_of_stopsUnshown {extras : List Text} {nodes : List (Text × Datum)}
    (h : StopsUnshown settings source nodes) :
    (decodeRules settings source extras nodes).outcome = .error .integerTooLong := by
  obtain ⟨before, node, later, rfl, hBefore, hStops⟩ := h
  exact decodeRules_eq_error hBefore (Expr.outcome_decode_of_stopsUnshown hStops)

end Bodies

end Document

/-! ## Grammars -/

namespace Grammar

open Document

theorem isReport_of_requireAll {names listed : List Text} {failure : Failure}
    (h : requireAll names listed = .error failure) : failure.IsReport := by
  induction listed with
  | nil => exact absurd h (by simp [requireAll])
  | cons name rest ih =>
      rw [requireAll] at h
      split at h
      · exact ih h
      · rw [← Except.error.inj h]
        exact ⟨_, rfl, Or.inr (Or.inr rfl)⟩

theorem isReport_of_ofRules {name : Text} {rules : List Rule} {root : Option Text}
    {extras : List Text} {failure : Failure} (h : ofRules name rules root extras = .error failure) :
    failure.IsReport := by
  unfold ofRules at h
  simp only at h
  split at h
  · rw [← Except.error.inj h]
    exact ⟨_, rfl, Or.inl rfl⟩
  · rw [← Except.error.inj h]
    exact ⟨_, rfl, Or.inl rfl⟩
  · split at h
    · split at h
      · rename_i hListed
        rw [← Except.error.inj h]
        exact isReport_of_requireAll hListed
      · exact absurd h (by simp)
    · rw [← Except.error.inj h]
      exact ⟨_, rfl, Or.inr (Or.inr rfl)⟩

theorem isReport_of_failDocument {α : Type} {source : Option FilePath} {cause : Cause}
    {failure : Failure} (hKind : cause.kind = .decode)
    (h : (failDocument source cause : Traced α).outcome = .error failure) : failure.IsReport := by
  rw [← Except.error.inj h]
  exact ⟨_, rfl, Or.inl hKind⟩

/-- A document is read by its members, even if it is still a text. -/
theorem ofDocument_of_members? [Nesting] {settings : Settings} {source : Option FilePath}
    {members : List (Text × Datum)} {document : Datum} (h : members? document = some members) :
    ofDocument settings source document = ofObject settings source members := by
  cases document with
  | object found =>
      rw [← Option.some.inj h]
      rfl
  | text text =>
      rw [members?] at h
      rw [ofDocument]
      split at h
      · rename_i found hRead
        rw [hRead, ← Option.some.inj h]
        rfl
      · exact absurd h (by simp)
  | _ => exact absurd h (by simp [members?])

end Grammar

end TreeTypes

import TreeTypes.Proofs.Grammar.Content

/-!
# How reading a document can end

Whatever is wrong with a document is reported, with three gaps. A text that
writes an integer with too many digits is not read at all, and the external
tokens and the rule bodies have a step each that fails before it can say why.
No other step does, so the three gaps, which `Document.Reportable` rules out,
are exactly what keeps reading from ending with a grammar or a report.

The steps come one after another, and a gap matters only if reading comes to
it: that of the external tokens if there are a name and rules, that of a rule
body if everything before it is in order.

## Main definitions

* `Document.Reportable` — what is wrong with a document can be reported.

## Main results

* `Grammar.isReport_or_of_ofObject` — what is not reported comes from the
  external tokens or from a rule body.
* `Grammar.ofDocument_outcome` — when the end is a grammar or a report.
* `Grammar.ofDocument_unreported` — documents that fail without a report.
-/

namespace TreeTypes

namespace Document

/-- Reading a document comes to nothing that is refused without a report: a text writes no integer
that is too long, the names of external tokens can be listed, and no body is the first that is not
decoded because its tag cannot be shown. -/
structure Reportable [Nesting] (settings : Settings) (source : Option FilePath)
    (document : Datum) : Prop where
  numerals : ∀ text digits, document = .text text → Json.read text ≠ .error (.longNumeral digits)
  externals : ∀ members externals, members? document = some members → HasNameAndRules members →
    Datum.lookup "externals" members = some externals →
    externals.isVacuous = true ∨ Listable externals
  tags : ∀ members, members? document = some members → Admissible members →
    ¬ StopsUnshown settings source (ruleNodes members)

end Document

namespace Grammar

open Document

section Ends

variable [Nesting] {settings : Settings} {source : Option FilePath}
  {members : List (Text × Datum)} {document : Datum} {failure : Failure}

/-! ## The members of a document -/

/-- The external tokens come right after the name and the rules. -/
theorem ofObject_of_refuseExternals (hMembers : HasNameAndRules members)
    (h : refuseExternals source ((Datum.lookup "externals" members).getD .null) = .error failure) :
    (ofObject settings source members).outcome = .error failure := by
  obtain ⟨name, hName⟩ := hMembers.name
  obtain ⟨rules, hRules, hNonempty⟩ := hMembers.rules
  cases rules with
  | nil => exact absurd rfl hNonempty
  | cons first rest =>
      unfold ofObject
      rw [nonEmptyText?_eq_some_iff.2 hName, hRules]
      exact Traced.outcome_bind_of_error h _

/-- External tokens with names that can be listed are reported as an unsupported construct. -/
theorem ofObject_of_listable {externals : Datum} (hMembers : HasNameAndRules members)
    (hExternals : Datum.lookup "externals" members = some externals)
    (hSome : externals.isVacuous = false) (hListable : Listable externals) :
    ∃ d, (ofObject settings source members).outcome = .error (.diagnosed d) ∧
      d.kind = .unsupported := by
  rcases refuseExternals_cases source externals with ⟨hVacuous, -⟩ | ⟨-, -, d, hRefused, hKind⟩ |
    ⟨-, hNot, -⟩
  · rw [hSome] at hVacuous
    exact absurd hVacuous (by simp)
  · refine ⟨d, ofObject_of_refuseExternals hMembers ?_, hKind⟩
    rw [hExternals]
    exact hRefused
  · exact absurd hListable hNot

/-- External tokens with names that cannot be listed are not reported. -/
theorem ofObject_of_not_listable {externals : Datum} (hMembers : HasNameAndRules members)
    (hExternals : Datum.lookup "externals" members = some externals)
    (hSome : externals.isVacuous = false) (hNot : ¬ Listable externals) :
    ∃ failure, (ofObject settings source members).outcome = .error failure ∧
      ¬ failure.IsReport := by
  rcases refuseExternals_cases source externals with ⟨hVacuous, -⟩ | ⟨-, hListable, -⟩ |
    ⟨-, -, failure, hRefused, hUnreported⟩
  · rw [hSome] at hVacuous
    exact absurd hVacuous (by simp)
  · exact absurd hListable hNot
  · refine ⟨failure, ofObject_of_refuseExternals hMembers ?_, hUnreported⟩
    rw [hExternals]
    exact hRefused

/-- A body with a tag that cannot be shown is not reported either. -/
theorem outcome_ofObject_of_stopsUnshown (hAdmissible : Admissible members)
    (h : StopsUnshown settings source (ruleNodes members)) :
    (ofObject settings source members).outcome = .error .integerTooLong := by
  obtain ⟨name, hName, hSome⟩ := hAdmissible.name
  rw [ofObject_of_admissible hAdmissible hName hSome]
  exact Traced.outcome_bind_of_error (outcome_decodeRules_of_stopsUnshown h) _

/-- Only the external tokens and the bodies of a document can make it fail without a report. -/
theorem isReport_or_of_ofObject (h : (ofObject settings source members).outcome = .error failure) :
    failure.IsReport ∨
      (HasNameAndRules members ∧
        refuseExternals source ((Datum.lookup "externals" members).getD .null) =
          .error failure) ∨
      (Admissible members ∧ StopsUnshown settings source (ruleNodes members)) := by
  unfold ofObject at h
  split at h
  · exact .inl (isReport_of_failDocument rfl h)
  · rename_i name hName
    split at h
    · rename_i first rest hRules
      have hMembers : HasNameAndRules members :=
        ⟨⟨name, nonEmptyText?_eq_some_iff.1 hName⟩, _, hRules, by simp⟩
      rcases Traced.outcome_bind_eq_error_iff.1 h with hExternals | ⟨_, hExternals, h⟩
      · exact .inr (.inl ⟨hMembers, hExternals⟩)
      rcases Traced.outcome_bind_eq_error_iff.1 h with hExtras | ⟨extras, hExtras, h⟩
      · exact .inl (isReport_of_extraNames hExtras)
      rcases Traced.outcome_bind_eq_error_iff.1 h with hDefined | ⟨_, hDefined, h⟩
      · exact .inl (isReport_of_requireDefined hDefined)
      rcases Traced.outcome_bind_eq_error_iff.1 h with hBodies | ⟨rules, -, h⟩
      · refine (isReport_or_of_decodeRules hBodies).imp_right fun hStops => .inr ⟨?_, ?_⟩
        · exact (admissible_of_steps hMembers hRules hExternals hExtras hDefined).1
        · rw [ruleNodes, hRules]
          exact hStops
      rcases Traced.outcome_bind_eq_error_iff.1 h with hBuilt | ⟨g, -, h⟩
      · exact .inl (isReport_of_ofRules hBuilt)
      · exact absurd h (by rw [Traced.outcome_report_bind]; exact Traced.outcome_pure_ne_error g _)
    · exact .inl (isReport_of_failDocument rfl h)

/-! ## Documents -/

/-- What is no object is reported, unless it is a text with an integer that is too long. -/
theorem isReport_of_members?_eq_none (hNone : members? document = none)
    (hNumerals : ∀ text digits, document = .text text →
      Json.read text ≠ .error (.longNumeral digits))
    (h : (ofDocument settings source document).outcome = .error failure) : failure.IsReport := by
  cases document with
  | object found => exact absurd hNone (by simp [members?])
  | text text =>
      rw [ofDocument] at h
      rw [members?] at hNone
      split at h
      · rename_i datum hRead
        rw [hRead] at hNone
        cases datum with
        | object found => exact absurd hNone (by simp)
        | _ => exact isReport_of_failDocument rfl h
      · exact isReport_of_failDocument rfl h
      · rename_i digits hRead
        exact absurd hRead (hNumerals text digits rfl)
  | _ => exact isReport_of_failDocument rfl h

/-- Where the three gaps are ruled out, every failure is reported. -/
theorem isReport_of_reportable (hReportable : Reportable settings source document)
    (h : (ofDocument settings source document).outcome = .error failure) : failure.IsReport := by
  cases hDocument : members? document with
  | none => exact isReport_of_members?_eq_none hDocument hReportable.numerals h
  | some members =>
      rw [ofDocument_of_members? hDocument] at h
      rcases isReport_or_of_ofObject h with hReport | ⟨hMembers, hRefused⟩ | ⟨hAdmissible, hStops⟩
      · exact hReport
      · rcases refuseExternals_cases source ((Datum.lookup "externals" members).getD .null) with
          ⟨-, hPassed⟩ | ⟨-, -, d, hReported, hKind⟩ | ⟨hSome, hNot, -⟩
        · rw [hPassed] at hRefused
          exact absurd hRefused (by simp)
        · rw [hReported] at hRefused
          exact ⟨d, (Except.error.inj hRefused).symm, Or.inr (Or.inl hKind)⟩
        · cases hExternals : Datum.lookup "externals" members with
          | none =>
              rw [hExternals] at hSome
              exact absurd hSome (by simp [Datum.isVacuous])
          | some externals =>
              rw [hExternals, Option.getD_some] at hSome hNot
              rcases hReportable.externals members externals hDocument hMembers hExternals with
                hVacuous | hNames
              · exact absurd hVacuous (by simp [hSome])
              · exact absurd hNames hNot
      · exact absurd hStops (hReportable.tags members hDocument hAdmissible)

/-- A document that is read or reported is in none of the three gaps. -/
theorem reportable_of_ended
    (hEnd : ∀ failure, (ofDocument settings source document).outcome = .error failure →
      failure.IsReport) : Reportable settings source document := by
  have hNotReport : ∀ failure, ¬ failure.IsReport →
      (ofDocument settings source document).outcome ≠ .error failure :=
    fun failure hUnreported hOutcome => hUnreported (hEnd failure hOutcome)
  refine { numerals := ?_, externals := ?_, tags := ?_ }
  · rintro text digits rfl hRead
    refine hNotReport (.numeralTooLong digits) (by simp [Failure.IsReport]) ?_
    rw [ofDocument, hRead]
    rfl
  · intro members externals hDocument hMembers hExternals
    by_contra hGap
    obtain ⟨hSome, hNot⟩ := not_or.1 hGap
    obtain ⟨failure, hFailure, hUnreported⟩ :
        ∃ failure, (ofObject settings source members).outcome = .error failure ∧
          ¬ failure.IsReport :=
      ofObject_of_not_listable hMembers hExternals (Bool.eq_false_iff.2 hSome) hNot
    exact hNotReport failure hUnreported (by rw [ofDocument_of_members? hDocument, hFailure])
  · intro members hDocument hAdmissible hStops
    refine hNotReport .integerTooLong (by simp [Failure.IsReport]) ?_
    rw [ofDocument_of_members? hDocument, outcome_ofObject_of_stopsUnshown hAdmissible hStops]

/-! ## The end of reading a document -/

/-- How reading a document can end, for documents that hold anything anywhere. It gives a grammar
or reports what is wrong exactly if the document is reportable. A list of external tokens that is
not empty is reported as an unsupported construct exactly if their names can be listed. -/
theorem ofDocument_outcome (settings : Settings) (source : Option FilePath) (document : Datum) :
    (((∃ g, (ofDocument settings source document).outcome = .ok g) ∨
        ∃ failure, (ofDocument settings source document).outcome = .error failure ∧
          failure.IsReport) ↔ Reportable settings source document) ∧
    ∀ members items, members? document = some members → HasNameAndRules members →
      Datum.lookup "externals" members = some (.array items) → items ≠ [] →
      ((∃ d, (ofDocument settings source document).outcome = .error (.diagnosed d) ∧
        d.kind = .unsupported) ↔ Listable (.array items)) := by
  refine ⟨⟨?_, ?_⟩, ?_⟩
  · rintro (⟨g, hGrammar⟩ | ⟨failure, hFailure, hReport⟩)
    · exact reportable_of_ended fun failure hFailure =>
        absurd (hGrammar.symm.trans hFailure) (by simp)
    · refine reportable_of_ended fun other hOther => ?_
      rw [← Except.error.inj (hFailure.symm.trans hOther)]
      exact hReport
  · intro hReportable
    cases hOutcome : (ofDocument settings source document).outcome with
    | ok g => exact Or.inl ⟨g, rfl⟩
    | error failure => exact Or.inr ⟨failure, rfl, isReport_of_reportable hReportable hOutcome⟩
  · intro members items hDocument hMembers hExternals hNonempty
    have hSome : (Datum.array items).isVacuous = false := by
      simpa [Datum.isVacuous] using hNonempty
    rw [ofDocument_of_members? hDocument]
    constructor
    · rintro ⟨d, hOutcome, hKind⟩
      by_contra hNot
      obtain ⟨failure, hFailure, hUnreported⟩ :
          ∃ failure, (ofObject settings source members).outcome = .error failure ∧
            ¬ failure.IsReport :=
        ofObject_of_not_listable hMembers hExternals hSome hNot
      rw [hOutcome] at hFailure
      exact hUnreported ⟨d, (Except.error.inj hFailure).symm, Or.inr (Or.inl hKind)⟩
    · exact ofObject_of_listable hMembers hExternals hSome

end Ends

/-- A document with a rule that has the given tag, and the given external tokens. -/
def tokenized (tag externals : Datum) : List (Text × Datum) :=
  [("name", .text "g"), ("rules", .object [("r", .object [("type", tag)])]),
    ("externals", externals)]

theorem hasNameAndRules_tokenized (tag externals : Datum) :
    HasNameAndRules (tokenized tag externals) :=
  ⟨⟨"g", rfl, by decide⟩, ⟨_, rfl, by simp⟩⟩

/-- A blank rule, and the given external tokens. -/
abbrev blankWith (externals : Datum) : List (Text × Datum) := tokenized (.text "BLANK") externals

theorem ofDocument_outcome_tokenized :
    HasNameAndRules (blankWith (.array [.object [("name", .text "indent")], .null])) ∧
      ∃ d, (@ofDocument (.upTo 254) {} none
          (.object (blankWith (.array [.object [("name", .text "indent")], .null])))).outcome =
        .error (.diagnosed d) ∧ d.kind = .unsupported := by
  let _ : Nesting := .upTo 254
  have hMembers :=
    hasNameAndRules_tokenized (.text "BLANK") (.array [.object [("name", .text "indent")], .null])
  have hListable : Listable (.array [.object [("name", .text "indent")], .null]) := by
    intro members name hItem hName
    simp only [List.mem_cons, Datum.object.injEq, List.not_mem_nil, or_false, reduceCtorEq] at hItem
    rw [hItem] at hName
    exact ⟨"indent", (Option.some.inj hName).symm⟩
  exact ⟨hMembers,
    ((ofDocument_outcome {} none _).2 _ _ rfl hMembers rfl (by simp)).2 hListable⟩

/-- A number that is too long to be shown. -/
def unshowable : Datum := .int (Int.ofNat (Nat.pow 10 4300))

/-- Documents that fail without a report. The external tokens of the first are a list with one
token, whose name is a number; those of the second are a number. The tag of the third is a number
with 4301 digits, and the fourth is the text of such a number. -/
theorem ofDocument_unreported :
    (HasNameAndRules (blankWith (.array [.object [("name", .int 1)]])) ∧
      (@ofDocument (.upTo 254) {} none
        (.object (blankWith (.array [.object [("name", .int 1)]])))).outcome =
        .error (.nameNotText 0 .int) ∧ ¬ (Failure.nameNotText 0 .int).IsReport) ∧
    (HasNameAndRules (blankWith (.int 5)) ∧
      (@ofDocument (.upTo 254) {} none (.object (blankWith (.int 5)))).outcome =
        .error (.notIterable .int) ∧ ¬ (Failure.notIterable .int).IsReport) ∧
    (HasNameAndRules (tokenized unshowable .null) ∧
      (@ofDocument (.upTo 254) {} none
        (.object (tokenized unshowable .null))).outcome = .error .integerTooLong ∧
      ¬ Failure.integerTooLong.IsReport) ∧
    (@ofDocument (.upTo 254) {} none (.text (List.replicate 4301 (.char '1')))).outcome =
      .error (.numeralTooLong 4301) ∧ ¬ (Failure.numeralTooLong 4301).IsReport := by
  refine ⟨⟨hasNameAndRules_tokenized _ _, rfl, ?_⟩, ⟨hasNameAndRules_tokenized _ _, rfl, ?_⟩,
    ⟨hasNameAndRules_tokenized _ _, by decide +kernel, ?_⟩, by decide +kernel, ?_⟩
  all_goals
    rintro ⟨d, hEq, -⟩
    exact absurd hEq (by simp)

end Grammar

end TreeTypes

import TreeTypes.Proofs.Grammar.Reading
import TreeTypes.Proofs.Json.Keys

/-!
# What a document describes

Reading a document asks for one thing after another and ends with a
constructor that knows nothing of documents. That constructor looks for
repeated names, asks for a root, and marks the extras a second time. None of
this has anything left to do: the keys of an object differ, the first of them
is the root, and the rules come in with the flags that the list of extras asks
for. So what is accepted and what comes of it can be read off the members of
the document.

`Document.Admissible` is the part of the document around the rule bodies, and
`Document.Describes` is the grammar, field by field. A grammar comes out
exactly if it is described by an admissible document
(`Grammar.ofObject_eq_ok_iff`). Around bodies that cannot be decoded nothing
else is at fault, and then the first of them in document order is reported.

## Main definitions

* `Document.ruleNodes`, `Document.extraEntries` — the lists in a document.
* `Document.Admissible` — nothing but rule bodies can be at fault.
* `Document.Describes` — the grammar that a document describes.

## Main results

* `Document.extraNamesFrom_eq_ok_iff`, `Document.decodeRules_eq_ok_iff` — what
  the two loops over a document collect.
* `Grammar.ofObject_eq_ok_iff`, `Grammar.ofDocument_text_eq_ok_iff` — what is
  accepted, and what comes of it.
* `Grammar.ofDocument_content` — the same, with the fault that is reported.
-/

namespace TreeTypes

namespace Document

open Datum (lookup)

/-! ## Descriptions -/

section Description

variable (document : List (Text × Datum))

/-- The rules of a document, as names and nodes. -/
def ruleNodes : List (Text × Datum) :=
  match lookup "rules" document with
  | some (.object nodes) => nodes
  | _ => []

/-- The names of the rules in document order. -/
def ruleNames : List Text := (ruleNodes document).map (·.1)

/-- The entries of the list of extras. Without a list there are none. -/
def extraEntries : List Datum :=
  match lookup "extras" document with
  | some (.array entries) => entries
  | _ => []

end Description

/-- The rule that an entry of the extras names; only a symbol names one. -/
def extraName? : Datum → Option Text
  | .object members =>
    match lookup "type" members with
    | some (.text tag) => if tag = "SYMBOL" then nonEmptyText? "name" members else none
    | _ => none
  | _ => none

theorem extraName?_eq_some_iff {entry : Datum} {name : Text} :
    extraName? entry = some name ↔
      ∃ members, entry = .object members ∧ lookup "type" members = some (.text "SYMBOL") ∧
        lookup "name" members = some (.text name) ∧ name ≠ [] := by
  cases entry with
  | object members =>
      simp only [Datum.object.injEq, exists_eq_left']
      rw [extraName?]
      split
      · rename_i tag hTag
        rw [hTag]
        split
        · rename_i hSymbol
          rw [hSymbol, nonEmptyText?_eq_some_iff]
          simp
        · rename_i hOther
          simp [hOther]
      · rename_i hTag
        refine iff_of_false (by simp) ?_
        rintro ⟨hSymbol, -⟩
        exact hTag _ hSymbol
  | _ => simp [extraName?]

/-- The names of the extra rules, each at its first place. -/
def listedExtras (document : List (Text × Datum)) : List Text :=
  Text.distinct ((extraEntries document).filterMap extraName?)

/-- The members around the rule bodies are in order: there are a name and rules, the external
tokens stand for nothing, and every extra that is a symbol names a rule. -/
structure Admissible (document : List (Text × Datum)) : Prop extends HasNameAndRules document where
  externals : ∀ externals, lookup "externals" document = some externals →
    externals.isVacuous = true
  extras : ∀ extras, lookup "extras" document = some extras → ∃ entries, extras = .array entries ∧
    ∀ entry ∈ entries, entry.IsTagged "SYMBOL" →
      ∃ name ∈ ruleNames document, extraName? entry = some name

section Description

variable [Nesting] (settings : Settings) (source : Option FilePath)

/-- A rule is what its entry in the document says. -/
structure DescribesRule (extras : List Text) (node : Text × Datum) (rule : Rule) : Prop where
  name : rule.name = node.1
  body : (Expr.decode ⟨settings, node.1, source⟩ node.2).outcome = .ok rule.body
  isExtra : rule.isExtra = true ↔ rule.name ∈ extras
  declared : rule.synthetic = false

/-- A grammar is what the document says. -/
structure Describes (document : List (Text × Datum)) (g : Grammar) : Prop where
  name : lookup "name" document = some (.text g.name)
  order : g.order = ruleNames document
  root : g.order.head? = some g.root
  extras : g.extras = listedExtras document
  rules : List.Forall₂ (DescribesRule settings source g.extras) (ruleNodes document) g.rules

end Description

variable {settings : Settings} {source : Option FilePath} {document : List (Text × Datum)}

/-! ## External tokens -/

theorem refuseExternals_eq_ok_iff {externals : Datum} :
    refuseExternals source externals = .ok () ↔ externals.isVacuous = true := by
  rcases refuseExternals_cases source externals with ⟨hVacuous, hPassed⟩ |
    ⟨hSome, -, d, hRefused, -⟩ | ⟨hSome, -, failure, hRefused, -⟩
  · simp [hVacuous, hPassed]
  · simp [hSome, hRefused]
  · simp [hSome, hRefused]

/-! ## Extras -/

section Extras

variable {entry : Datum} {found : List Text} {rest : List Datum}

/-- What is no symbol is passed over. -/
theorem extraNamesFrom_of_not_tagged (h : ¬ entry.IsTagged "SYMBOL") :
    (extraNamesFrom source found (entry :: rest)).outcome =
      (extraNamesFrom source found rest).outcome := by
  conv_lhs => unfold extraNamesFrom
  split
  · rename_i members
    split
    · rename_i tag hTag
      split
      · rename_i hSymbol
        rw [hSymbol] at hTag
        exact absurd ⟨members, rfl, hTag⟩ h
      · exact Traced.outcome_report_bind _ _
    · exact Traced.outcome_report_bind _ _
  · exact Traced.outcome_report_bind _ _

/-- A name is added at the end, unless it was found before. -/
theorem extraNamesFrom_of_named {name : Text} (h : extraName? entry = some name) :
    (extraNamesFrom source found (entry :: rest)).outcome =
      (extraNamesFrom source (if name ∈ found then found else found ++ [name]) rest).outcome := by
  obtain ⟨members, rfl, hTag, hName, hNonempty⟩ := extraName?_eq_some_iff.1 h
  have hSymbol : lookup "type" members = some (.text Tag.symbol.text) := hTag
  rw [extraNamesFrom]
  simp only [hSymbol, if_true, nonEmptyText?_eq_some_iff.2 ⟨hName, hNonempty⟩]

/-- A symbol without a name ends the search. -/
theorem extraNamesFrom_of_unnamed (hTagged : entry.IsTagged "SYMBOL")
    (h : extraName? entry = none) :
    (extraNamesFrom source found (entry :: rest)).outcome =
      .error (.located { source } .extraWithoutName) := by
  obtain ⟨members, rfl, hTag⟩ := hTagged
  have hSymbol : lookup "type" members = some (.text Tag.symbol.text) := hTag
  rw [extraName?, hTag] at h
  simp only [if_true] at h
  rw [extraNamesFrom]
  simp only [hSymbol, if_true, h]
  rfl

/-- The names are those of the symbols, each at its first place, and every symbol has one. The
induction carries what stood before as a list that may repeat itself. -/
theorem extraNamesFrom_eq_ok_iff {entries : List Datum} {seen names : List Text} :
    (extraNamesFrom source (Text.distinct seen) entries).outcome = .ok names ↔
      (∀ entry ∈ entries, entry.IsTagged "SYMBOL" → ∃ name, extraName? entry = some name) ∧
        names = Text.distinct (seen ++ entries.filterMap extraName?) := by
  induction entries generalizing seen with
  | nil =>
      rw [extraNamesFrom, Traced.outcome_pure_eq_ok_iff]
      simp [eq_comm]
  | cons entry rest ih =>
      rw [List.forall_mem_cons, List.filterMap_cons]
      cases hName : extraName? entry with
      | some name =>
          have hNext : (if name ∈ Text.distinct seen then Text.distinct seen
              else Text.distinct seen ++ [name]) = Text.distinct (seen ++ [name]) := by
            simp only [Text.mem_distinct, Text.distinct_append_singleton]
          rw [extraNamesFrom_of_named hName, hNext, ih]
          simp
      | none =>
          by_cases hTagged : entry.IsTagged "SYMBOL"
          · rw [extraNamesFrom_of_unnamed hTagged hName]
            simp [hTagged]
          · rw [extraNamesFrom_of_not_tagged hTagged, ih]
            simp [hTagged]

end Extras

theorem extraNames_eq_ok_iff {names : List Text} :
    (extraNames source ((lookup "extras" document).getD (.array []))).outcome = .ok names ↔
      (∀ extras, lookup "extras" document = some extras → ∃ entries, extras = .array entries ∧
        ∀ entry ∈ entries, entry.IsTagged "SYMBOL" → ∃ name, extraName? entry = some name) ∧
      names = listedExtras document := by
  have hList : ∀ entries, (extraNames source (.array entries)).outcome = .ok names ↔
      (∀ entry ∈ entries, entry.IsTagged "SYMBOL" → ∃ name, extraName? entry = some name) ∧
        names = Text.distinct (entries.filterMap extraName?) :=
    fun entries => @extraNamesFrom_eq_ok_iff source entries [] names
  rw [listedExtras, extraEntries]
  cases hExtras : lookup "extras" document with
  | none =>
      rw [Option.getD_none, hList]
      simp
  | some extras =>
      rw [Option.getD_some]
      cases extras with
      | array entries =>
          rw [hList]
          simp
      | _ => simp [extraNames, Traced.fail]

theorem requireDefined_eq_ok_iff {rules : List (Text × Datum)} {names : List Text} :
    requireDefined source rules names = .ok () ↔ ∀ name ∈ names, name ∈ rules.map (·.1) := by
  induction names with
  | nil => simp [requireDefined]
  | cons name rest ih =>
      rw [requireDefined, List.forall_mem_cons]
      cases hRule : lookup name rules with
      | none => simp [Datum.lookup_eq_none_iff.1 hRule]
      | some node =>
          have hMem : name ∈ rules.map (·.1) := by
            by_contra hNone
            exact absurd (Datum.lookup_eq_none_iff.2 hNone) (by simp [hRule])
          simp only [hMem, true_and]
          exact ih

/-- Symbols have names and these are rules, or at once: symbols name rules. -/
theorem forall_symbols_iff {entries : List Datum} {names : List Text} :
    (∀ entry ∈ entries, entry.IsTagged "SYMBOL" → ∃ name ∈ names, extraName? entry = some name) ↔
      (∀ entry ∈ entries, entry.IsTagged "SYMBOL" → ∃ name, extraName? entry = some name) ∧
        ∀ name ∈ entries.filterMap extraName?, name ∈ names := by
  constructor
  · intro h
    constructor
    · intro entry hEntry hTagged
      obtain ⟨name, -, hName⟩ := h entry hEntry hTagged
      exact ⟨name, hName⟩
    · intro name hName
      obtain ⟨entry, hEntry, hFound⟩ := List.mem_filterMap.1 hName
      obtain ⟨members, hObject, hTag, -⟩ := extraName?_eq_some_iff.1 hFound
      obtain ⟨other, hOther, hSame⟩ := h entry hEntry ⟨members, hObject, hTag⟩
      rw [← Option.some.inj (hSame.symm.trans hFound)]
      exact hOther
  · rintro ⟨hNamed, hNames⟩ entry hEntry hTagged
    obtain ⟨name, hName⟩ := hNamed entry hEntry hTagged
    exact ⟨name, hNames name (List.mem_filterMap.2 ⟨entry, hEntry, hName⟩), hName⟩

/-- A document is admissible if the steps before the rules pass. -/
theorem admissible_iff (source : Option FilePath) (hMembers : HasNameAndRules document) :
    Admissible document ↔
      ((lookup "externals" document).getD .null).isVacuous = true ∧
      (extraNames source ((lookup "extras" document).getD (.array []))).outcome =
        .ok (listedExtras document) ∧
      ∀ extra ∈ listedExtras document, extra ∈ ruleNames document := by
  have hExternals : (∀ externals, lookup "externals" document = some externals →
      externals.isVacuous = true) ↔
        ((lookup "externals" document).getD .null).isVacuous = true := by
    cases lookup "externals" document with
    | none => simp [Datum.isVacuous]
    | some externals => simp
  have hExtras : (∀ extras, lookup "extras" document = some extras → ∃ entries,
      extras = .array entries ∧ ∀ entry ∈ entries, entry.IsTagged "SYMBOL" →
        ∃ name ∈ ruleNames document, extraName? entry = some name) ↔
      (extraNames source ((lookup "extras" document).getD (.array []))).outcome =
        .ok (listedExtras document) ∧
      ∀ extra ∈ listedExtras document, extra ∈ ruleNames document := by
    rw [extraNames_eq_ok_iff, listedExtras, extraEntries]
    simp only [and_true, Text.mem_distinct]
    cases lookup "extras" document with
    | none => simp
    | some extras =>
        cases extras with
        | array entries =>
            simp only [Option.some.injEq, Datum.array.injEq, forall_eq', exists_eq_left',
              forall_symbols_iff]
        | _ => simp
  rw [← hExternals, ← hExtras]
  exact ⟨fun h => ⟨h.externals, h.extras⟩, fun h => ⟨hMembers, h.1, h.2⟩⟩

/-- What the steps before the rules ask for, they ask of the listed extras. -/
theorem admissible_of_steps {nodes : List (Text × Datum)} {extras : List Text}
    (hMembers : HasNameAndRules document) (hRules : lookup "rules" document = some (.object nodes))
    (hExternals : refuseExternals source ((lookup "externals" document).getD .null) = .ok ())
    (hExtras : (extraNames source ((lookup "extras" document).getD (.array []))).outcome =
      .ok extras)
    (hDefined : requireDefined source nodes extras = .ok ()) :
    Admissible document ∧ extras = listedExtras document := by
  obtain ⟨-, rfl⟩ := extraNames_eq_ok_iff.1 hExtras
  refine ⟨(admissible_iff source hMembers).2
    ⟨refuseExternals_eq_ok_iff.1 hExternals, hExtras, ?_⟩, rfl⟩
  rw [ruleNames, ruleNodes, hRules]
  exact requireDefined_eq_ok_iff.1 hDefined

/-! ## Rules -/

variable [Nesting]

/-- The rules are those that the entries describe, one by one. -/
theorem decodeRules_eq_ok_iff {extras : List Text} {nodes : List (Text × Datum)}
    {rules : List Rule} :
    (decodeRules settings source extras nodes).outcome = .ok rules ↔
      List.Forall₂ (DescribesRule settings source extras) nodes rules := by
  induction nodes generalizing rules with
  | nil =>
      rw [decodeRules, Traced.outcome_pure_eq_ok_iff, List.forall₂_nil_left_iff, eq_comm]
  | cons node rest ih =>
      obtain ⟨name, datum⟩ := node
      rw [decodeRules, Traced.outcome_bind_eq_ok_iff, List.forall₂_cons_left_iff]
      constructor
      · rintro ⟨body, hBody, hRest⟩
        obtain ⟨others, hOthers, hAll⟩ := Traced.outcome_bind_eq_ok_iff.1 hRest
        exact ⟨_, _, ⟨rfl, hBody, decide_eq_true_iff, rfl⟩, ih.1 hOthers,
          (Traced.outcome_pure_eq_ok_iff.1 hAll).symm⟩
      · rintro ⟨rule, others, hRule, hOthers, rfl⟩
        have hEq : rule = { name, body := rule.body, isExtra := decide (name ∈ extras) } := by
          have hFlag : rule.isExtra = decide (name ∈ extras) := by
            rw [Bool.eq_iff_iff, decide_eq_true_iff, hRule.isExtra, hRule.name]
          have hName : rule.name = name := hRule.name
          rw [← hFlag, ← hName, ← hRule.declared]
        refine ⟨rule.body, hRule.body, ?_⟩
        rw [Traced.outcome_bind_of_ok (ih.2 hOthers), ← hEq]
        rfl

theorem map_name_of_forall₂ {extras : List Text} {nodes : List (Text × Datum)}
    {rules : List Rule} (h : List.Forall₂ (DescribesRule settings source extras) nodes rules) :
    rules.map Rule.name = nodes.map (·.1) := by
  induction h with
  | nil => rfl
  | cons hRule _ ih => rw [List.map_cons, List.map_cons, hRule.name, ih]

theorem isExtra_iff_of_forall₂ {extras : List Text} {nodes : List (Text × Datum)}
    {rules : List Rule} (h : List.Forall₂ (DescribesRule settings source extras) nodes rules) :
    ∀ rule ∈ rules, rule.isExtra = true ↔ rule.name ∈ extras := by
  induction h with
  | nil => simp
  | cons hRule _ ih => exact List.forall_mem_cons.2 ⟨hRule.isExtra, ih⟩

/-- An admissible document describes a grammar if its bodies can be decoded. -/
theorem exists_describes_iff (h : Admissible document) :
    (∃ g, Describes settings source document g) ↔
      ∀ node ∈ ruleNodes document, ∃ body,
        (Expr.decode ⟨settings, node.1, source⟩ node.2).outcome = .ok body := by
  have hEach : ∀ node : Text × Datum,
      (∃ rule, DescribesRule settings source (listedExtras document) node rule) ↔
        ∃ body, (Expr.decode ⟨settings, node.1, source⟩ node.2).outcome = .ok body := by
    intro node
    constructor
    · rintro ⟨rule, hRule⟩
      exact ⟨rule.body, hRule.body⟩
    · rintro ⟨body, hBody⟩
      exact ⟨{ name := node.1, body, isExtra := decide (node.1 ∈ listedExtras document) },
        rfl, hBody, decide_eq_true_iff, rfl⟩
  simp only [← hEach]
  rw [← exists_forall₂_iff]
  constructor
  · rintro ⟨g, hDescribed⟩
    have hRules := hDescribed.rules
    rw [hDescribed.extras] at hRules
    exact ⟨g.rules, hRules⟩
  · rintro ⟨rules, hRules⟩
    obtain ⟨name, hName, -⟩ := h.name
    obtain ⟨nodes, hNodes, hNonempty⟩ := h.rules
    have hOrder : rules.map Rule.name = ruleNames document := map_name_of_forall₂ hRules
    have hSome : ruleNames document ≠ [] := by
      rw [ruleNames, ruleNodes, hNodes]
      simpa using hNonempty
    obtain ⟨first, hFirst⟩ := Option.ne_none_iff_exists'.1 (mt List.head?_eq_none_iff.1 hSome)
    exact ⟨⟨name, first, rules, listedExtras document⟩, hName, hOrder,
      (congrArg List.head? hOrder).trans hFirst, rfl, hRules⟩

end Document

/-! ## Grammars -/

namespace Grammar

open Datum (lookup)
open Document

section Content

variable [Nesting] {settings : Settings} {source : Option FilePath}
  {document : List (Text × Datum)}

/-- What is left to do once an admissible document has been gone through. -/
theorem ofObject_of_admissible (h : Admissible document) {name : Text}
    (hName : lookup "name" document = some (.text name)) (hSome : name ≠ []) :
    (ofObject settings source document).outcome = (do
      let declared ← decodeRules settings source (listedExtras document) (ruleNodes document)
      let g ← Traced.ofExcept (ofRules name declared none (listedExtras document))
      Traced.report [g.loaded]
      return g).outcome := by
  obtain ⟨hExternals, hExtras, hSubset⟩ := (admissible_iff source h.1).1 h
  obtain ⟨nodes, hRules, hNonempty⟩ := h.rules
  have hNodes : ruleNodes document = nodes := by rw [ruleNodes, hRules]
  rw [ruleNames, hNodes] at hSubset
  rw [hNodes]
  obtain ⟨first, rest, rfl⟩ := List.exists_cons_of_ne_nil hNonempty
  have hPassed : (Traced.ofExcept (refuseExternals source
      ((lookup "externals" document).getD .null))).outcome = .ok () :=
    refuseExternals_eq_ok_iff.2 hExternals
  have hDefined : (Traced.ofExcept (requireDefined source (first :: rest)
      (listedExtras document))).outcome = .ok () :=
    requireDefined_eq_ok_iff.2 hSubset
  unfold ofObject
  rw [nonEmptyText?_eq_some_iff.2 ⟨hName, hSome⟩, hRules]
  simp only [Traced.outcome_bind_of_ok hPassed, Traced.outcome_bind_of_ok hExtras,
    Traced.outcome_bind_of_ok hDefined]

/-- The steps before the rules ask for nothing else. -/
theorem admissible_of_ofObject {g : Grammar}
    (h : (ofObject settings source document).outcome = .ok g) : Admissible document := by
  obtain ⟨name, nodes, extras, rules, hName, hRules, hNonempty, hExternals, hExtras, hDefined, -⟩ :=
    steps_of_ofObject h
  have hMembers : HasNameAndRules document :=
    ⟨⟨name, nonEmptyText?_eq_some_iff.1 hName⟩, nodes, hRules, hNonempty⟩
  exact (admissible_of_steps hMembers hRules hExternals hExtras hDefined).1

/-- An admissible document gives the grammar that it describes, and no other. -/
theorem ofObject_eq_ok_iff_describes (hDocument : (Datum.object document).DistinctKeys)
    (h : Admissible document) {g : Grammar} :
    (ofObject settings source document).outcome = .ok g ↔
      Describes settings source document g := by
  obtain ⟨name, hName, hSome⟩ := h.name
  obtain ⟨nodes, hRules, -⟩ := h.rules
  obtain ⟨-, -, hSubset⟩ := (admissible_iff source h.1).1 h
  have hKeys : (ruleNames document).Nodup := by
    rw [ruleNames, ruleNodes, hRules]
    exact (Datum.distinctKeys_of_lookup hDocument hRules).1
  -- The constructor finds the names distinct, the extras among them and the flags as listed.
  have hBuilt : ∀ {rules : List Rule},
      List.Forall₂ (DescribesRule settings source (listedExtras document)) (ruleNodes document)
        rules →
      (ofRules name rules none (listedExtras document) = .ok g ↔
        g.name = name ∧ g.order.head? = some g.root ∧ g.rules = rules ∧
          g.extras = listedExtras document) := by
    intro rules hDecoded
    have hOrder : rules.map Rule.name = ruleNames document := map_name_of_forall₂ hDecoded
    refine ofRules_eq_ok_iff_of_flags (hOrder ▸ hKeys) (Text.nodup_distinct _) (hOrder ▸ hSubset) ?_
    exact isExtra_iff_of_forall₂ hDecoded
  rw [ofObject_of_admissible h hName hSome]
  simp only [Traced.outcome_bind_eq_ok_iff, Traced.outcome_report_bind,
    Traced.outcome_pure_eq_ok_iff, decodeRules_eq_ok_iff, exists_eq_right]
  constructor
  · rintro ⟨rules, hDecoded, hEq⟩
    obtain ⟨rfl, hRoot, rfl, hListed⟩ := (hBuilt hDecoded).1 hEq
    refine ⟨hName, map_name_of_forall₂ hDecoded, hRoot, hListed, ?_⟩
    rw [hListed]
    exact hDecoded
  · intro hDescribed
    have hDecoded := hDescribed.rules
    rw [hDescribed.extras] at hDecoded
    have hSame : g.name = name := by
      have hBoth := hDescribed.name.symm.trans hName
      simpa using hBoth
    exact ⟨g.rules, hDecoded,
      (hBuilt hDecoded).2 ⟨hSame, hDescribed.root, rfl, hDescribed.extras⟩⟩

/-- A grammar comes out exactly if an admissible document describes it. -/
theorem ofObject_eq_ok_iff (hDocument : (Datum.object document).DistinctKeys) {g : Grammar} :
    (ofObject settings source document).outcome = .ok g ↔
      Admissible document ∧ Describes settings source document g := by
  constructor
  · intro h
    have hAdmissible := admissible_of_ofObject h
    exact ⟨hAdmissible, (ofObject_eq_ok_iff_describes hDocument hAdmissible).1 h⟩
  · rintro ⟨hAdmissible, hDescribed⟩
    exact (ofObject_eq_ok_iff_describes hDocument hAdmissible).2 hDescribed

/-- The same for a text. What it stands for has distinct keys even if the text repeats some. -/
theorem ofDocument_text_eq_ok_iff {text : Text} (hRead : Json.read text = .ok (.object document))
    {g : Grammar} :
    (ofDocument settings source (.text text)).outcome = .ok g ↔
      Admissible document ∧ Describes settings source document g := by
  have hMembers : members? (.text text) = some document := by rw [members?, hRead]
  rw [ofDocument_of_members? hMembers]
  exact ofObject_eq_ok_iff (Json.distinctKeys_of_read hRead)

/-- What is accepted, what comes of it, and which of several bodies at fault is reported. A decoded
document is accepted exactly if it is admissible and all its rule bodies can be decoded; a grammar
that comes out is the one that the document describes; and when nothing but rule bodies is at
fault, the failure is that of the first of them in document order. -/
theorem ofDocument_content (settings : Settings) (source : Option FilePath)
    (document : List (Text × Datum)) (hDocument : (Datum.object document).DistinctKeys) :
    ((∃ g, (ofDocument settings source (.object document)).outcome = .ok g) ↔
      Admissible document ∧ ∀ node ∈ ruleNodes document, ∃ body,
        (Expr.decode ⟨settings, node.1, source⟩ node.2).outcome = .ok body) ∧
    (∀ g, (ofDocument settings source (.object document)).outcome = .ok g →
      Describes settings source document g) ∧
    (Admissible document → ∀ before node later failure,
      ruleNodes document = before ++ node :: later →
      (∀ earlier ∈ before, ∃ body,
        (Expr.decode ⟨settings, earlier.1, source⟩ earlier.2).outcome = .ok body) →
      (Expr.decode ⟨settings, node.1, source⟩ node.2).outcome = .error failure →
      (ofDocument settings source (.object document)).outcome = .error failure) := by
  rw [ofDocument_of_members? rfl]
  refine ⟨?_, ?_, ?_⟩
  · constructor
    · rintro ⟨g, h⟩
      obtain ⟨hAdmissible, hDescribed⟩ := (ofObject_eq_ok_iff hDocument).1 h
      exact ⟨hAdmissible, (exists_describes_iff hAdmissible).1 ⟨g, hDescribed⟩⟩
    · rintro ⟨hAdmissible, hBodies⟩
      obtain ⟨g, hDescribed⟩ := (exists_describes_iff hAdmissible).2 hBodies
      exact ⟨g, (ofObject_eq_ok_iff hDocument).2 ⟨hAdmissible, hDescribed⟩⟩
  · exact fun g h => ((ofObject_eq_ok_iff hDocument).1 h).2
  · intro hAdmissible before node later failure hNodes hBefore hNode
    obtain ⟨name, hName, hSome⟩ := hAdmissible.name
    rw [ofObject_of_admissible hAdmissible hName hSome, hNodes]
    exact Traced.outcome_bind_of_error (decodeRules_eq_error hBefore hNode) _

end Content

/-- A rule and an extra with this body. The extra is listed twice, around one without a rule. -/
def annotated (body : Datum) : List (Text × Datum) :=
  [("name", .text "g"),
    ("rules", .object [("r", .object [("type", .text "BLANK")]), ("c", body)]),
    ("extras", .array [
      .object [("type", .text "SYMBOL"), ("name", .text "c")],
      .object [("type", .text "PATTERN"), ("value", .text "[ ]")],
      .object [("type", .text "SYMBOL"), ("name", .text "c")]])]

theorem admissible_annotated (body : Datum) : Admissible (annotated body) := by
  have hMembers : HasNameAndRules (annotated body) :=
    ⟨⟨"g", rfl, by decide⟩, _, rfl, List.cons_ne_nil _ _⟩
  have hRule : ("c" : Text) ∈ ruleNames (annotated body) :=
    List.mem_cons_of_mem _ List.mem_cons_self
  exact (admissible_iff none hMembers).2
    ⟨rfl, rfl, List.forall_mem_cons.2 ⟨hRule, List.forall_mem_nil _⟩⟩

theorem distinctKeys_annotated {body : Datum} (h : body.DistinctKeys) :
    (Datum.object (annotated body)).DistinctKeys := by
  simp +decide [annotated, Datum.DistinctKeys, Datum.DistinctKeysMembers,
    Datum.DistinctKeysItems, h]

/-- The extra is an extra once. If its body is null, that is what is reported. -/
theorem ofDocument_content_annotated :
    (Datum.object (annotated (.object [("type", .text "BLANK")]))).DistinctKeys ∧
      (∃ g, (@ofDocument (.upTo 254) {} none
          (.object (annotated (.object [("type", .text "BLANK")])))).outcome = .ok g ∧
        g.root = "r" ∧ g.extras = ["c"]) ∧
      (@ofDocument (.upTo 254) {} none (.object (annotated .null))).outcome =
        .error (Body.failure ⟨{}, "c", none⟩ (.nodeNotObject .null)) := by
  let _ : Nesting := .upTo 254
  have hKeys : (Datum.object (annotated (.object [("type", .text "BLANK")]))).DistinctKeys :=
    distinctKeys_annotated (by simp [Datum.DistinctKeys, Datum.DistinctKeysMembers])
  have hNull : (Datum.object (annotated .null)).DistinctKeys :=
    distinctKeys_annotated (by simp [Datum.DistinctKeys])
  have hBodies : ∀ node ∈ ruleNodes (annotated (.object [("type", .text "BLANK")])), ∃ body,
      (Expr.decode ⟨{}, node.1, none⟩ node.2).outcome = .ok body :=
    List.forall_mem_cons.2 ⟨⟨.blank, rfl⟩, List.forall_mem_cons.2 ⟨⟨.blank, rfl⟩,
      List.forall_mem_nil _⟩⟩
  obtain ⟨g, hGrammar⟩ := (ofDocument_content {} none _ hKeys).1.2
    ⟨admissible_annotated _, hBodies⟩
  have hDescribed := (ofDocument_content {} none _ hKeys).2.1 g hGrammar
  have hRoot : some g.root = some ("r" : Text) := by
    rw [← hDescribed.root, hDescribed.order]
    rfl
  refine ⟨hKeys, ⟨g, hGrammar, Option.some.inj hRoot, hDescribed.extras⟩, ?_⟩
  exact (ofDocument_content {} none _ hNull).2.2
    (admissible_annotated .null) [("r", .object [("type", .text "BLANK")])] ("c", .null) [] _ rfl
    (List.forall_mem_cons.2 ⟨⟨.blank, rfl⟩, List.forall_mem_nil _⟩) rfl

end Grammar

end TreeTypes

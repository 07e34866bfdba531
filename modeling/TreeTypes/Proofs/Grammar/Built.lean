import TreeTypes.Grammar.Document
import TreeTypes.Proofs.Expr.Decoding
import TreeTypes.Proofs.Grammar.WellFormed

/-!
# How grammars come about

There are two ways to get a grammar: from rules at hand, whose bodies are then
valid to begin with, and from a document. A document leads through the same
constructor in the end, and what it puts in there is valid too, because no
other expression is decoded.

So the two ways make the same kind of grammar: well-formed, with valid bodies.

## Main results

* `Document.valid_decodeRules` — the rules of a document have valid bodies.
* `Grammar.steps_of_ofObject` — the steps from a document to a grammar.
* `Grammar.Built.wellFormed`, `Grammar.Built.valid` — what is true of every
  grammar that a program can hold.
-/

namespace TreeTypes

section Document

variable [Nesting]

/-- The rules of a document have valid bodies. -/
theorem Document.valid_decodeRules {settings : Settings} {source : Option FilePath}
    {extras : List Text} {nodes : List (Text × Datum)} {rules : List Rule}
    (h : (decodeRules settings source extras nodes).outcome = .ok rules) :
    ∀ rule ∈ rules, rule.body.Valid := by
  induction nodes generalizing rules with
  | nil =>
      rw [← Except.ok.inj h]
      intro rule hRule
      exact absurd hRule List.not_mem_nil
  | cons node rest ih =>
      obtain ⟨body, hBody, hRest⟩ := Traced.outcome_bind_eq_ok_iff.1 h
      obtain ⟨others, hOthers, hAll⟩ := Traced.outcome_bind_eq_ok_iff.1 hRest
      rw [← Except.ok.inj hAll]
      intro rule hRule
      rcases List.mem_cons.1 hRule with rfl | hLater
      · exact Expr.valid_decode hBody
      · exact ih hOthers rule hLater

namespace Grammar

open Document in
/-- The steps through which the members of a document become a grammar. -/
theorem steps_of_ofObject {settings : Settings} {source : Option FilePath}
    {document : List (Text × Datum)} {g : Grammar}
    (h : (ofObject settings source document).outcome = .ok g) :
    ∃ name nodes extras rules, nonEmptyText? "name" document = some name ∧
      Datum.lookup "rules" document = some (.object nodes) ∧ nodes ≠ [] ∧
      refuseExternals source ((Datum.lookup "externals" document).getD .null) = .ok () ∧
      (extraNames source ((Datum.lookup "extras" document).getD (.array []))).outcome =
        .ok extras ∧
      requireDefined source nodes extras = .ok () ∧
      (decodeRules settings source extras nodes).outcome = .ok rules ∧
      ofRules name rules none extras = .ok g := by
  unfold ofObject at h
  split at h
  · exact absurd h (by simp [failDocument, Traced.fail])
  · rename_i name hName
    split at h
    · rename_i first rest hNodes
      obtain ⟨_, hExternals, h⟩ := Traced.outcome_bind_eq_ok_iff.1 h
      obtain ⟨extras, hExtras, h⟩ := Traced.outcome_bind_eq_ok_iff.1 h
      obtain ⟨_, hDefined, h⟩ := Traced.outcome_bind_eq_ok_iff.1 h
      obtain ⟨rules, hRules, h⟩ := Traced.outcome_bind_eq_ok_iff.1 h
      obtain ⟨built, hBuilt, h⟩ := Traced.outcome_bind_eq_ok_iff.1 h
      rw [Traced.outcome_report_bind, Traced.outcome_pure_eq_ok_iff] at h
      subst h
      exact ⟨name, first :: rest, extras, rules, hName, hNodes, List.cons_ne_nil _ _, hExternals,
        hExtras, hDefined, hRules, hBuilt⟩
    · exact absurd h (by simp [failDocument, Traced.fail])

/-- A document is turned into rules with valid bodies, and these into a grammar. -/
theorem exists_ofRules_of_ofDocument {settings : Settings} {source : Option FilePath}
    {document : Datum} {g : Grammar} (h : (ofDocument settings source document).outcome = .ok g) :
    ∃ name rules root extras, (∀ rule ∈ rules, rule.body.Valid) ∧
      ofRules name rules root extras = .ok g := by
  have hDatum : ∀ datum, (ofDatum settings source datum).outcome = .ok g →
      ∃ name rules root extras, (∀ rule ∈ rules, rule.body.Valid) ∧
        ofRules name rules root extras = .ok g := by
    intro datum hDatum
    unfold ofDatum at hDatum
    split at hDatum
    · obtain ⟨name, nodes, extras, rules, -, -, -, -, -, -, hRules, hBuilt⟩ :=
        steps_of_ofObject hDatum
      exact ⟨name, rules, none, extras, Document.valid_decodeRules hRules, hBuilt⟩
    · exact absurd hDatum (by simp [failDocument, Traced.fail])
  unfold ofDocument at h
  split at h
  · split at h
    · exact hDatum _ h
    · exact absurd h (by simp [failDocument, Traced.fail])
    · exact absurd h (by simp [Traced.fail])
  · exact hDatum _ h

end Grammar

end Document

namespace Grammar

/-- A grammar that comes about in one of the two ways, however deep nodes may stand. -/
inductive Built (g : Grammar) : Prop
  | ofRules {name : Text} {rules : List Rule} {root : Option Text} {extras : List Text}
      (hValid : ∀ rule ∈ rules, rule.body.Valid)
      (h : Grammar.ofRules name rules root extras = .ok g) : Built g
  | ofDocument [Nesting] {settings : Settings} {source : Option FilePath} {document : Datum}
      (h : (Grammar.ofDocument settings source document).outcome = .ok g) : Built g

/-- The bodies of the rules that a grammar was made from are those of its rules. -/
theorem valid_of_ofRules {name : Text} {rules : List Rule} {root : Option Text}
    {extras : List Text} {g : Grammar} (hValid : ∀ rule ∈ rules, rule.body.Valid)
    (h : ofRules name rules root extras = .ok g) : ∀ rule ∈ g.rules, rule.body.Valid := by
  intro rule hRule
  have hBody : rule.body ∈ rules.map Rule.body := by
    rw [← bodies_of_ofRules h]
    exact List.mem_map_of_mem hRule
  obtain ⟨original, hOriginal, hEq⟩ := List.mem_map.1 hBody
  rw [← hEq]
  exact hValid original hOriginal

theorem Built.wellFormed {g : Grammar} (h : g.Built) : g.WellFormed := by
  cases h with
  | ofRules _ h => exact wellFormed_of_ofRules h
  | ofDocument h =>
      obtain ⟨name, rules, root, extras, -, hRules⟩ := exists_ofRules_of_ofDocument h
      exact wellFormed_of_ofRules hRules

theorem Built.valid {g : Grammar} (h : g.Built) : ∀ rule ∈ g.rules, rule.body.Valid := by
  cases h with
  | ofRules hValid h => exact valid_of_ofRules hValid h
  | ofDocument h =>
      obtain ⟨name, rules, root, extras, hValid, hRules⟩ := exists_ofRules_of_ofDocument h
      exact valid_of_ofRules hValid hRules

end Grammar

end TreeTypes

import TreeTypes.Proofs.Grammar.WellFormed

/-!
# Rules put together

The rules that go into a grammar and the list of extras that comes with them
may say different things. A rule can be flagged and not listed, listed and not
flagged, or listed more than once. None of this is refused. The two are merged:
the list comes first and fixes the order, the flags add what it leaves out, and
afterwards a rule is flagged exactly if it is listed. An empty root is treated
in the same spirit, as no root at all.

What is refused are names that do not fit together, and nothing else
(`Grammar.Fits`). Of the rest of a rule, its body and its synthetic flag, no
notice is taken.

Hoisting takes a grammar apart and puts it together again. By then the flags
and the list agree, and the root is a rule or, if its name is empty, the first
rule, so there is nothing left to merge.

## Main definitions

* `Grammar.Fits` — which rules make a grammar.
* `Grammar.IsAssembled` — the grammar that they make.

## Main results

* `Text.distinct_eq_eraseDups` — the listed extras keep their first places.
* `Grammar.ofRules_assembles` — when there is a grammar, which it is, and that
  it is made of its own parts.
-/

namespace TreeTypes

/-! ## First places -/

namespace Text

theorem distinct_filter (keep : Text → Bool) (texts : List Text) :
    distinct (texts.filter keep) = (distinct texts).filter keep := by
  induction texts with
  | nil => rfl
  | cons t rest ih =>
      rw [List.filter_cons, distinct]
      split
      · rename_i hKeep
        rw [distinct, ih, List.filter_cons_of_pos hKeep, List.filter_comm]
      · rename_i hDrop
        rw [ih, List.filter_cons_of_neg hDrop, List.filter_filter]
        refine List.filter_congr fun other _ => ?_
        by_cases hSame : other = t
        · simp [hSame, hDrop]
        · simp [hSame]

/-- Repetitions are dropped, and each text stays where it stands first. -/
theorem distinct_eq_eraseDups : ∀ texts : List Text, distinct texts = texts.eraseDups
  | [] => rfl
  | t :: rest => by
      have hRest := distinct_eq_eraseDups (rest.filter (· ≠ t))
      have hSame : (rest.filter fun other => decide (other ≠ t)) =
          rest.filter fun other => !other == t :=
        List.filter_congr fun other _ => by by_cases hOther : other = t <;> simp [hOther]
      rw [distinct, List.eraseDups_cons, ← distinct_filter, hRest, hSame]
  termination_by texts => texts.length
  decreasing_by exact Nat.lt_succ_of_le (List.length_filter_le _ _)

end Text

namespace Grammar

/-! ## Descriptions -/

/-- The names that come with some rules fit together. -/
structure Fits (rules : List Rule) (root : Option Text) (extras : List Text) : Prop where
  names_nodup : (rules.map Rule.name).Nodup
  rules_ne_nil : rules ≠ []
  /-- An empty root asks for nothing. -/
  root_mem : ∀ asked, root = some asked → asked ≠ [] → asked ∈ rules.map Rule.name
  extras_mem : ∀ extra ∈ extras, extra ∈ rules.map Rule.name

/-- A grammar is made of some rules. -/
structure IsAssembled (name : Text) (rules : List Rule) (root : Option Text) (extras : List Text)
    (g : Grammar) : Prop where
  name_eq : g.name = name
  order_eq : g.order = rules.map Rule.name
  /-- Rules stay as they are, but for their flags, which say what the list of extras says. -/
  rules_eq : g.rules = rules.map fun rule => { rule with isExtra := decide (rule.name ∈ g.extras) }
  /-- The listed extras come first, then the rules that are flagged and not listed. -/
  extras_eq : g.extras = extras.eraseDups ++
    (rules.filter fun rule => rule.isExtra ∧ rule.name ∉ extras).map Rule.name
  extras_nodup : g.extras.Nodup
  isExtra_iff : ∀ rule ∈ g.rules, rule.isExtra = true ↔ rule.name ∈ g.extras
  root_asked : ∀ asked, root = some asked → asked ≠ [] → g.root = asked
  root_first : root = none ∨ root = some [] → g.order.head? = some g.root

/-! ## The root -/

/-- A root is asked for only by a text that is not empty. -/
theorem chooseRoot_eq_or (root : Option Text) (first : Text) :
    (∃ asked, root = some asked ∧ asked ≠ [] ∧ chooseRoot root first = asked) ∨
      (root = none ∨ root = some []) ∧ chooseRoot root first = first := by
  cases root with
  | none => exact Or.inr ⟨Or.inl rfl, rfl⟩
  | some asked =>
      cases asked with
      | nil => exact Or.inr ⟨Or.inr rfl, rfl⟩
      | cons p rest => exact Or.inl ⟨p :: rest, rfl, by simp, rfl⟩

theorem chooseRoot_mem_iff {root : Option Text} {first : Text} {names : List Text}
    (hFirst : first ∈ names) :
    chooseRoot root first ∈ names ↔
      ∀ asked, root = some asked → asked ≠ [] → asked ∈ names := by
  rcases chooseRoot_eq_or root first with ⟨asked, rfl, hAsked, hRoot⟩ | ⟨hNone, hRoot⟩
  · rw [hRoot]
    constructor
    · rintro hMem other hOther -
      rw [← Option.some.inj hOther]
      exact hMem
    · intro hAll
      exact hAll asked rfl hAsked
  · rw [hRoot]
    refine iff_of_true hFirst fun asked hSome hAsked => ?_
    rcases hNone with rfl | rfl
    · exact absurd hSome (by simp)
    · exact absurd (Option.some.inj hSome).symm hAsked

/-! ## Putting together -/

variable {name : Text} {rules : List Rule} {root : Option Text} {extras : List Text}

theorem exists_ofRules_iff :
    (∃ g, ofRules name rules root extras = .ok g) ↔ Fits rules root extras := by
  simp only [ofRules_eq_ok_iff]
  constructor
  · rintro ⟨g, hNames, first, hFirst, hRoot, hExtras, -⟩
    have hMem := List.mem_of_mem_head? hFirst
    refine ⟨hNames, ?_, (chooseRoot_mem_iff hMem).1 hRoot, hExtras⟩
    rintro rfl
    exact absurd hFirst (by simp)
  · intro h
    obtain ⟨rule, rest, rfl⟩ := List.exists_cons_of_ne_nil h.rules_ne_nil
    have hMem : rule.name ∈ (rule :: rest).map Rule.name := List.mem_map_of_mem List.mem_cons_self
    exact ⟨_, h.names_nodup, rule.name, rfl, (chooseRoot_mem_iff hMem).2 h.root_mem,
      h.extras_mem, rfl⟩

theorem isAssembled_of_ofRules {g : Grammar} (h : ofRules name rules root extras = .ok g) :
    IsAssembled name rules root extras g := by
  have hWell := wellFormed_of_ofRules h
  have hRules := rules_of_ofRules h
  have hOrder : g.order = rules.map Rule.name := by
    rw [order, hRules, List.map_map]
    rfl
  obtain ⟨-, first, hFirst, -, -, hParts⟩ := ofRules_eq_ok_iff.1 h
  have hRoot : g.root = chooseRoot root first := congrArg Grammar.root hParts
  refine ⟨congrArg Grammar.name hParts, hOrder, hRules, ?_, hWell.extras_nodup, hWell.isExtra_iff,
    ?_, ?_⟩
  · have hExtras := congrArg Grammar.extras hParts
    simpa only [flaggedOnly, Text.distinct_eq_eraseDups, List.mem_eraseDups] using hExtras
  · intro asked hAsked hSome
    rw [hRoot]
    rcases chooseRoot_eq_or root first with ⟨other, hOther, -, hChosen⟩ | ⟨hNone | hEmpty, -⟩
    · rw [hChosen]
      exact Option.some.inj (hOther.symm.trans hAsked)
    · exact absurd (hNone.symm.trans hAsked) (by simp)
    · exact absurd (Option.some.inj (hEmpty.symm.trans hAsked)).symm hSome
  · intro hNone
    rw [hOrder, hFirst, hRoot]
    rcases chooseRoot_eq_or root first with ⟨asked, rfl, hAsked, -⟩ | ⟨-, hChosen⟩
    · exact absurd hNone (by simpa using hAsked)
    · rw [hChosen]

/-- Which rules make a grammar, and which grammar they make. Rules do if no two have the same name,
there is one, a root that is not empty is one of them, and so are the listed extras. The grammar has
the rules in their order, with bodies and synthetic flags as they were; its extras are the listed
ones, each at its first place, and then the ones that are only flagged; exactly these are flagged in
it; and its root is the one that was asked for, or the first rule. Made of its own rules, root and
extras it is the same grammar. -/
theorem ofRules_assembles (name : Text) (rules : List Rule) (root : Option Text)
    (extras : List Text) :
    ((∃ g, ofRules name rules root extras = .ok g) ↔ Fits rules root extras) ∧
    ∀ g, ofRules name rules root extras = .ok g →
      IsAssembled name rules root extras g ∧
      ofRules g.name g.rules (some g.root) g.extras = .ok g := by
  refine ⟨exists_ofRules_iff, fun g hBuilt => ?_⟩
  exact ⟨isAssembled_of_ofRules hBuilt, (wellFormed_of_ofRules hBuilt).ofRules_eq_ok⟩

/-- Rules whose flags and whose list of extras disagree in both directions. The first has an empty
name and was made by hoisting. -/
def disagreeing : List Rule := [
  { name := [], body := .symbol "item", synthetic := true },
  { name := "space", body := .terminal .pattern "[ ]", isExtra := true },
  { name := "item", body := .blank },
  { name := "comment", body := .terminal .pattern "#.*" }]

/-- Flags and a list that repeats itself are merged, and an empty root is the first rule. -/
theorem ofRules_assembles_disagreeing :
    Fits disagreeing (some []) ["comment", "comment"] ∧
      ∃ g, ofRules "g" disagreeing (some []) ["comment", "comment"] = .ok g ∧
        g.order = [[], "space", "item", "comment"] ∧ g.root = [] ∧
        g.extras = ["comment", "space"] ∧
        ofRules g.name g.rules (some g.root) g.extras = .ok g := by
  have hFits : Fits disagreeing (some []) ["comment", "comment"] :=
    ⟨by decide, by simp [disagreeing], by simp, by decide⟩
  obtain ⟨hExists, hMade⟩ :=
    ofRules_assembles "g" disagreeing (some []) ["comment", "comment"]
  obtain ⟨g, hBuilt⟩ := hExists.2 hFits
  obtain ⟨hAssembled, hAgain⟩ := hMade g hBuilt
  have hRoot := hAssembled.root_first (Or.inr rfl)
  rw [hAssembled.order_eq] at hRoot
  refine ⟨hFits, g, hBuilt, hAssembled.order_eq, (Option.some.inj hRoot).symm, ?_, hAgain⟩
  rw [hAssembled.extras_eq]
  decide

end Grammar

end TreeTypes

import Mathlib.Data.List.Nodup
import TreeTypes.Grammar.Basic

/-!
# What every grammar satisfies

The program makes grammars with `Grammar.ofRules` only, and `WellFormed` is
what that function establishes: no two rules share a name, the root is a rule,
and the two ways of marking extras, the flag and the list, agree. In exchange
the rules go in as they are. Their order, names, bodies and synthetic flags
are those of the input.

The converse is what hoisting needs: a grammar with these properties is taken
apart and put together again without a change, and without a failure.

## Main results

* `Grammar.wellFormed_of_ofRules` — the invariant holds of every grammar.
* `Grammar.WellFormed.ofRules_eq_ok` — putting together is undone by itself.
* `Grammar.WellFormed.find?_eq_some_iff` — looking up by name is membership.
-/

namespace TreeTypes

/-! ## Lists without repetitions -/

namespace Text

@[simp] theorem mem_distinct {texts : List Text} {t : Text} :
    t ∈ distinct texts ↔ t ∈ texts := by
  induction texts with
  | nil => simp [distinct]
  | cons head rest ih =>
      by_cases hHead : t = head
      · simp [distinct, hHead]
      · simp [distinct, hHead, ih]

theorem nodup_distinct (texts : List Text) : (distinct texts).Nodup := by
  induction texts with
  | nil => exact List.nodup_nil
  | cons head rest ih =>
      rw [distinct, List.nodup_cons]
      refine ⟨?_, ih.filter _⟩
      simp

/-- What has no repetitions stays. -/
theorem distinct_eq_self {texts : List Text} (h : texts.Nodup) : distinct texts = texts := by
  induction texts with
  | nil => rfl
  | cons head rest ih =>
      obtain ⟨hHead, hRest⟩ := List.nodup_cons.1 h
      rw [distinct, ih hRest, List.filter_eq_self.2]
      intro t ht
      have hNe : t ≠ head := fun hEq => hHead (hEq ▸ ht)
      simpa using hNe

/-- One more text is kept if it did not stand earlier. -/
theorem distinct_append_singleton (texts : List Text) (t : Text) :
    distinct (texts ++ [t]) = if t ∈ texts then distinct texts else distinct texts ++ [t] := by
  induction texts with
  | nil => rfl
  | cons head rest ih =>
      rw [List.cons_append, distinct, ih, distinct]
      by_cases hHead : t = head
      · subst hHead
        rw [if_pos List.mem_cons_self]
        split
        · rfl
        · rw [List.filter_append]
          simp
      · by_cases hRest : t ∈ rest
        · rw [if_pos hRest, if_pos (List.mem_cons_of_mem _ hRest)]
        · rw [if_neg hRest, if_neg (by simp [hHead, hRest]), List.filter_append]
          simp [hHead]

/-- What comes after is kept or dropped alike after lists of the same texts. -/
theorem distinct_append_congr {texts others : List Text} (h : distinct texts = distinct others)
    (more : List Text) : distinct (texts ++ more) = distinct (others ++ more) := by
  induction more generalizing texts others with
  | nil => rwa [List.append_nil, List.append_nil]
  | cons t rest ih =>
      have hMem : t ∈ texts ↔ t ∈ others := by rw [← mem_distinct, h, mem_distinct]
      have hHead : distinct (texts ++ [t]) = distinct (others ++ [t]) := by
        simp only [distinct_append_singleton, h, hMem]
      rw [List.append_cons, List.append_cons others]
      exact ih hHead

/-- What stood earlier is not kept again. -/
theorem distinct_append_of_subset {texts more : List Text} (h : ∀ t ∈ more, t ∈ texts) :
    distinct (texts ++ more) = distinct texts := by
  induction more with
  | nil => rw [List.append_nil]
  | cons t rest ih =>
      obtain ⟨hHead, hRest⟩ := List.forall_mem_cons.1 h
      have hDropped : distinct (texts ++ [t]) = distinct texts := by
        rw [distinct_append_singleton, if_pos hHead]
      rw [List.append_cons, distinct_append_congr hDropped, ih hRest]

/-- Among entries without a common key, looking up by key is membership. -/
theorem find?_key_eq_some_iff {α : Type} {key : α → Text} {entries : List α}
    (hNodup : (entries.map key).Nodup) {k : Text} {entry : α} :
    entries.find? (key · = k) = some entry ↔ entry ∈ entries ∧ key entry = k := by
  constructor
  · intro hFind
    have hKey : key entry = k := by simpa using List.find?_some hFind
    exact ⟨List.mem_of_find?_eq_some hFind, hKey⟩
  · rintro ⟨hEntry, rfl⟩
    cases hFind : entries.find? (key · = key entry) with
    | none =>
        have hNone := List.find?_eq_none.1 hFind entry hEntry
        exact absurd (decide_eq_true rfl) hNone
    | some other =>
        have hKey : key other = key entry := by simpa using List.find?_some hFind
        rw [List.inj_on_of_nodup_map hNodup (List.mem_of_find?_eq_some hFind) hEntry hKey]

/-- Among entries without a common key, a key picks at most one. -/
theorem filter_key_eq_find? {α : Type} {key : α → Text} {entries : List α}
    (hNodup : (entries.map key).Nodup) (k : Text) :
    entries.filter (key · = k) = (entries.find? (key · = k)).toList := by
  induction entries with
  | nil => rfl
  | cons entry rest ih =>
      obtain ⟨hHead, hRest⟩ := List.nodup_cons.1 hNodup
      by_cases hKey : key entry = k
      · have hNone : rest.filter (key · = k) = [] := by
          rw [List.filter_eq_nil_iff]
          intro other hOther hSame
          have hSame : key other = k := by simpa using hSame
          exact hHead (List.mem_map.2 ⟨other, hOther, hSame.trans hKey.symm⟩)
        rw [List.filter_cons_of_pos (by simpa using hKey), hNone,
          List.find?_cons_of_pos (by simpa using hKey), Option.toList_some]
      · rw [List.filter_cons_of_neg (by simpa using hKey),
          List.find?_cons_of_neg (by simpa using hKey), ih hRest]

end Text

namespace Grammar

theorem firstRepeated_eq_none_iff {names : List Text} : ∀ {seen : List Text},
    firstRepeated seen names = none ↔ names.Nodup ∧ ∀ name ∈ names, name ∉ seen := by
  induction names with
  | nil =>
      intro seen
      simp [firstRepeated]
  | cons name rest ih =>
      intro seen
      rw [firstRepeated]
      by_cases hSeen : name ∈ seen
      · simp [hSeen]
      · rw [if_neg hSeen, ih, List.nodup_cons]
        constructor
        · rintro ⟨hRest, hNew⟩
          refine ⟨⟨?_, hRest⟩, ?_⟩
          · intro hMem
            exact hNew name hMem List.mem_cons_self
          · intro other hOther hIn
            rcases List.mem_cons.1 hOther with rfl | hLater
            · exact hSeen hIn
            · exact hNew other hLater (List.mem_cons_of_mem _ hIn)
        · rintro ⟨⟨hHead, hRest⟩, hNew⟩
          refine ⟨hRest, ?_⟩
          intro other hOther hIn
          rcases List.mem_cons.1 hIn with rfl | hOld
          · exact hHead hOther
          · exact hNew other (List.mem_cons_of_mem _ hOther) hOld

theorem requireAll_eq_ok_iff {names listed : List Text} :
    requireAll names listed = .ok () ↔ ∀ name ∈ listed, name ∈ names := by
  induction listed with
  | nil => simp [requireAll]
  | cons name rest ih =>
      rw [requireAll]
      by_cases hName : name ∈ names
      · simp [hName, ih]
      · simp [hName, refuse]

/-! ## The invariant -/

/-- What `ofRules` establishes. -/
structure WellFormed (g : Grammar) : Prop where
  /-- No two rules share a name. -/
  order_nodup : g.order.Nodup
  /-- The root is a rule. -/
  root_mem : g.root ∈ g.order
  /-- An empty root is as good as none, so it has to be the first rule. -/
  root_eq_nil : g.root = [] → g.order.head? = some []
  /-- No extra is listed twice. -/
  extras_nodup : g.extras.Nodup
  /-- Every extra is a rule. -/
  extras_subset : ∀ name ∈ g.extras, name ∈ g.order
  /-- The flags say what the list says. -/
  isExtra_iff : ∀ rule ∈ g.rules, rule.isExtra = true ↔ rule.name ∈ g.extras

/-- A rule with the flag that the list of extras asks for. -/
def flag (listed : List Text) (rule : Rule) : Rule :=
  if rule.name ∈ listed then { rule with isExtra := true } else rule

@[simp] theorem flag_name (listed : List Text) (rule : Rule) :
    (flag listed rule).name = rule.name := by
  unfold flag
  split <;> rfl

@[simp] theorem flag_body (listed : List Text) (rule : Rule) :
    (flag listed rule).body = rule.body := by
  unfold flag
  split <;> rfl

theorem flag_isExtra (listed : List Text) (rule : Rule) :
    (flag listed rule).isExtra = true ↔ rule.name ∈ listed ∨ rule.isExtra = true := by
  unfold flag
  split
  · rename_i h
    simp [h]
  · rename_i h
    simp [h]

/-- The names of the rules that are flagged and not listed. -/
def flaggedOnly (listed : List Text) (rules : List Rule) : List Text :=
  (rules.filter fun rule => rule.isExtra ∧ rule.name ∉ listed).map Rule.name

theorem mem_flaggedOnly {listed : List Text} {rules : List Rule} {name : Text} :
    name ∈ flaggedOnly listed rules ↔
      ∃ rule ∈ rules, rule.isExtra = true ∧ rule.name ∉ listed ∧ rule.name = name := by
  simp [flaggedOnly, and_assoc]

theorem chooseRoot_cases (root : Option Text) (first : Text) :
    chooseRoot root first = first ∨ chooseRoot root first ≠ [] := by
  unfold chooseRoot Location.given
  split
  · exact Or.inr (by simp)
  · exact Or.inl rfl

/-- Flags that say what the list says stay. -/
theorem map_flag_eq_self {listed : List Text} {rules : List Rule}
    (h : ∀ rule ∈ rules, rule.isExtra = true ↔ rule.name ∈ listed) :
    rules.map (flag listed) = rules := by
  rw [List.map_congr_left (g := id) ?_, List.map_id]
  intro rule hRule
  unfold flag
  split
  · rename_i hIn
    have hFlag := (h rule hRule).2 hIn
    rw [← hFlag]
    rfl
  · rfl

theorem flaggedOnly_eq_nil {listed : List Text} {rules : List Rule}
    (h : ∀ rule ∈ rules, rule.isExtra = true ↔ rule.name ∈ listed) :
    flaggedOnly listed rules = [] := by
  rw [List.eq_nil_iff_forall_not_mem]
  intro name hName
  obtain ⟨rule, hRule, hFlag, hOut, -⟩ := mem_flaggedOnly.1 hName
  exact hOut ((h rule hRule).1 hFlag)

/-- When `ofRules` gives a grammar, and which. -/
theorem ofRules_eq_ok_iff {name : Text} {rules : List Rule} {root : Option Text}
    {extras : List Text} {g : Grammar} :
    ofRules name rules root extras = .ok g ↔
      (rules.map Rule.name).Nodup ∧
      ∃ first, (rules.map Rule.name).head? = some first ∧
        chooseRoot root first ∈ rules.map Rule.name ∧
        (∀ extra ∈ extras, extra ∈ rules.map Rule.name) ∧
        g = { name := name
              root := chooseRoot root first
              rules := rules.map (flag (Text.distinct extras))
              extras := Text.distinct extras ++ flaggedOnly (Text.distinct extras) rules } := by
  unfold ofRules
  simp only
  cases hRepeated : firstRepeated [] (rules.map Rule.name) with
  | some repeated =>
      have hNot : ¬ (rules.map Rule.name).Nodup := by
        intro hNodup
        rw [firstRepeated_eq_none_iff.2 ⟨hNodup, by simp⟩] at hRepeated
        exact absurd hRepeated (by simp)
      simp [refuse, hNot]
  | none =>
      have hNodup := (firstRepeated_eq_none_iff.1 hRepeated).1
      cases hNames : rules.map Rule.name with
      | nil => simp [refuse]
      | cons first rest =>
          simp only
          rw [hNames] at hNodup
          by_cases hRoot : chooseRoot root first ∈ first :: rest
          · rw [if_pos hRoot]
            cases hListed : requireAll (first :: rest) (Text.distinct extras) with
            | error failure =>
                have hNot : ¬ ∀ extra ∈ extras, extra ∈ first :: rest := by
                  intro hAll
                  rw [requireAll_eq_ok_iff.2 fun extra h => hAll extra (Text.mem_distinct.1 h)]
                    at hListed
                  exact absurd hListed (by simp)
                constructor
                · intro h
                  exact absurd h (by simp)
                · rintro ⟨-, _, -, -, hAll, -⟩
                  exact absurd hAll hNot
            | ok done =>
                have hAll : ∀ extra ∈ extras, extra ∈ first :: rest := fun extra h =>
                  requireAll_eq_ok_iff.1 hListed extra (Text.mem_distinct.2 h)
                constructor
                · intro h
                  refine ⟨hNodup, first, rfl, hRoot, hAll, ?_⟩
                  exact (Except.ok.inj h).symm
                · rintro ⟨-, _, hFirst, -, -, hEq⟩
                  rw [List.head?_cons, Option.some.injEq] at hFirst
                  subst hFirst
                  rw [hEq]
                  rfl
          · rw [if_neg hRoot]
            constructor
            · intro h
              exact absurd h (by simp [refuse])
            · rintro ⟨-, _, hFirst, hMem, -⟩
              rw [List.head?_cons, Option.some.injEq] at hFirst
              rw [← hFirst] at hMem
              exact absurd hMem hRoot

/-- Rules whose flags agree with the extras go in as they are. -/
theorem ofRules_eq_ok_iff_of_flags {name : Text} {rules : List Rule} {extras : List Text}
    {g : Grammar} (hNames : (rules.map Rule.name).Nodup) (hExtras : extras.Nodup)
    (hSubset : ∀ extra ∈ extras, extra ∈ rules.map Rule.name)
    (hFlags : ∀ rule ∈ rules, rule.isExtra = true ↔ rule.name ∈ extras) :
    ofRules name rules none extras = .ok g ↔
      g.name = name ∧ g.order.head? = some g.root ∧ g.rules = rules ∧ g.extras = extras := by
  rw [ofRules_eq_ok_iff, Text.distinct_eq_self hExtras, map_flag_eq_self hFlags,
    flaggedOnly_eq_nil hFlags, List.append_nil]
  constructor
  · rintro ⟨-, first, hFirst, -, -, rfl⟩
    exact ⟨rfl, hFirst, rfl, rfl⟩
  · rintro ⟨rfl, hRoot, rfl, rfl⟩
    exact ⟨hNames, g.root, hRoot, List.mem_of_mem_head? hRoot, hSubset, rfl⟩

/-- Every grammar that `ofRules` makes satisfies the invariant. -/
theorem wellFormed_of_ofRules {name : Text} {rules : List Rule} {root : Option Text}
    {extras : List Text} {g : Grammar} (h : ofRules name rules root extras = .ok g) :
    g.WellFormed := by
  obtain ⟨hNodup, first, hFirst, hRoot, hListed, rfl⟩ := ofRules_eq_ok_iff.1 h
  have hOrder : (rules.map (flag (Text.distinct extras))).map Rule.name =
      rules.map Rule.name := by
    rw [List.map_map]
    exact List.map_congr_left fun rule _ => flag_name _ rule
  constructor
  · show ((rules.map _).map Rule.name).Nodup
    rw [hOrder]
    exact hNodup
  · show _ ∈ (rules.map _).map Rule.name
    rw [hOrder]
    exact hRoot
  · intro hNil
    show ((rules.map _).map Rule.name).head? = some []
    rw [hOrder, hFirst]
    rcases chooseRoot_cases root first with hEq | hNe
    · rw [← hEq]
      exact congrArg some hNil
    · exact absurd hNil hNe
  · -- Listed names come without repetitions, and flagged ones follow only if they are not listed.
    show (Text.distinct extras ++ flaggedOnly (Text.distinct extras) rules).Nodup
    rw [List.nodup_append']
    refine ⟨Text.nodup_distinct extras, ?_, ?_⟩
    · have hSub : (flaggedOnly (Text.distinct extras) rules).Sublist (rules.map Rule.name) :=
        (List.filter_sublist).map Rule.name
      exact hNodup.sublist hSub
    · intro extra hIn hFlagged
      obtain ⟨rule, -, -, hOut, rfl⟩ := mem_flaggedOnly.1 hFlagged
      exact hOut hIn
  · intro extra hExtra
    show extra ∈ (rules.map _).map Rule.name
    rw [hOrder]
    rcases List.mem_append.1 hExtra with hIn | hFlagged
    · exact hListed extra (Text.mem_distinct.1 hIn)
    · obtain ⟨rule, hRule, -, -, rfl⟩ := mem_flaggedOnly.1 hFlagged
      exact List.mem_map_of_mem hRule
  · intro rule hRule
    obtain ⟨original, hOriginal, rfl⟩ := List.mem_map.1 hRule
    rw [flag_isExtra, flag_name, List.mem_append, mem_flaggedOnly]
    constructor
    · rintro (hIn | hFlag)
      · exact Or.inl hIn
      · by_cases hIn : original.name ∈ Text.distinct extras
        · exact Or.inl hIn
        · exact Or.inr ⟨original, hOriginal, hFlag, hIn, rfl⟩
    · rintro (hIn | ⟨other, hOther, hFlag, -, hName⟩)
      · exact Or.inl hIn
      · have hSame : other = original := List.inj_on_of_nodup_map hNodup hOther hOriginal hName
        exact Or.inr (hSame ▸ hFlag)

/-- The bodies go in as they are. -/
theorem bodies_of_ofRules {name : Text} {rules : List Rule} {root : Option Text}
    {extras : List Text} {g : Grammar} (h : ofRules name rules root extras = .ok g) :
    g.rules.map Rule.body = rules.map Rule.body := by
  obtain ⟨-, first, -, -, -, rfl⟩ := ofRules_eq_ok_iff.1 h
  show (rules.map _).map Rule.body = _
  rw [List.map_map]
  exact List.map_congr_left fun rule _ => flag_body _ rule

/-- The rules go in as they are, but for the flags, which the list of extras decides. -/
theorem rules_of_ofRules {name : Text} {rules : List Rule} {root : Option Text}
    {extras : List Text} {g : Grammar} (h : ofRules name rules root extras = .ok g) :
    g.rules = rules.map fun rule => { rule with isExtra := decide (rule.name ∈ g.extras) } := by
  have hWell := wellFormed_of_ofRules h
  obtain ⟨-, first, -, -, -, rfl⟩ := ofRules_eq_ok_iff.1 h
  refine List.map_congr_left fun rule hRule => ?_
  have hFlag := hWell.isExtra_iff _ (List.mem_map_of_mem hRule)
  rw [flag_name] at hFlag
  have hValue : (flag (Text.distinct extras) rule).isExtra =
      decide (rule.name ∈ Text.distinct extras ++ flaggedOnly (Text.distinct extras) rules) := by
    rw [Bool.eq_iff_iff, decide_eq_true_iff]
    exact hFlag
  have hRest : flag (Text.distinct extras) rule =
      { rule with isExtra := (flag (Text.distinct extras) rule).isExtra } := by
    unfold flag
    split <;> rfl
  rw [hRest, hValue]

/-- The names of the rules that a grammar is made of differ. -/
theorem nodup_of_ofRules {name : Text} {rules : List Rule} {root : Option Text}
    {extras : List Text} {g : Grammar} (h : ofRules name rules root extras = .ok g) :
    rules.Nodup := (ofRules_eq_ok_iff.1 h).1.of_map Rule.name

namespace WellFormed

variable {g : Grammar}

/-- A well-formed grammar is put together again from its parts. -/
theorem ofRules_eq_ok (h : g.WellFormed) :
    ofRules g.name g.rules (some g.root) g.extras = .ok g := by
  have hFirst : ∃ first, g.order.head? = some first ∧ chooseRoot (some g.root) first = g.root := by
    cases hRoot : g.root with
    | nil => exact ⟨[], h.root_eq_nil hRoot, rfl⟩
    | cons p rest =>
        cases hOrder : g.order with
        | nil =>
            have hMem := h.root_mem
            rw [hOrder] at hMem
            exact absurd hMem List.not_mem_nil
        | cons first others => exact ⟨first, rfl, rfl⟩
  obtain ⟨first, hHead, hChosen⟩ := hFirst
  refine ofRules_eq_ok_iff.2 ⟨h.order_nodup, first, hHead, ?_, h.extras_subset, ?_⟩
  · rw [hChosen]
    exact h.root_mem
  · rw [hChosen, Text.distinct_eq_self h.extras_nodup, map_flag_eq_self h.isExtra_iff,
      flaggedOnly_eq_nil h.isExtra_iff, List.append_nil]

/-! ## Looking up -/

/-- A rule is determined by its name. -/
theorem eq_of_name_eq (h : g.WellFormed) {a b : Rule} (ha : a ∈ g.rules) (hb : b ∈ g.rules)
    (hName : a.name = b.name) : a = b :=
  List.inj_on_of_nodup_map h.order_nodup ha hb hName

theorem find?_eq_some_iff (h : g.WellFormed) {name : Text} {rule : Rule} :
    g.find? name = some rule ↔ rule ∈ g.rules ∧ rule.name = name :=
  Text.find?_key_eq_some_iff h.order_nodup

end WellFormed

theorem mem_order {g : Grammar} {name : Text} :
    name ∈ g.order ↔ ∃ rule ∈ g.rules, rule.name = name := List.mem_map

theorem has_eq_true_iff {g : Grammar} {name : Text} : g.has name = true ↔ name ∈ g.order := by
  simp [has, order]

theorem mem_declared {g : Grammar} {rule : Rule} :
    rule ∈ g.declared ↔ rule ∈ g.rules ∧ rule.isExtra = false := by
  simp [declared]

/-! ## A grammar to try things on -/

/-- A root that mentions itself and holds a choice in a choice, a rule that is a choice and holds
another, a rule that the root does not reach, and an extra. -/
def sample : Grammar where
  name := "sample"
  root := "program"
  rules := [
    { name := "program"
      body := .repetition .zeroOrMore (.sequence [.symbol "program", .choice [.blank,
        .sequence [.terminal .literal "x", .choice [.symbol "item", .symbol "program"]]]]) },
    { name := "item"
      body := .choice [.symbol "program", .sequence [.symbol "item",
        .choice [.symbol "item", .terminal .pattern "[0-9]"]]] },
    { name := "stray"
      body := .sequence [.choice [.symbol "stray", .symbol "program"],
        .repetition .oneOrMore (.symbol "item")] },
    { name := "comment", body := .terminal .pattern "#.*", isExtra := true }]
  extras := ["comment"]

theorem ofRules_sample : ofRules "sample" sample.rules none ["comment"] = .ok sample := by
  decide

theorem valid_sample : ∀ rule ∈ sample.rules, rule.body.Valid := by
  have hNames : ("program" : Text) ≠ [] ∧ ("item" : Text) ≠ [] ∧ ("stray" : Text) ≠ [] := by
    decide
  simp [sample, Expr.Valid, Expr.ValidMembers, hNames]

end Grammar

end TreeTypes

import TreeTypes.Proofs.Hoisting.Queue

/-!
# All rules of a grammar

Declared rules are hoisted one after another, and the supply of names is
handed on from each to the next. What a rule comes to is thereby the outcome
of one queue, and a harvest is those outcomes side by side: extras as they
are, every other rule in the place that it had, and all rules made behind
them. No name is made twice, since what one rule has drawn is in use for the
next.

## Main results

* `Hoisting.harvested_kept` — what becomes of every declared rule.
* `Hoisting.names_harvested_fresh` — the names made are new.
* `Hoisting.harvested_symbols_perm` — conservation of references.
* `Hoisting.harvested_forward` — rules made are mentioned by earlier rules only.
-/

namespace TreeTypes

namespace Hoisting

/-! ## One declared rule -/

/-- The rules that a declared rule gives rise to. -/
def offspring (rule : Rule) (s : NameSupply) : List Rule :=
  (drained rule.name (rule.hoisted rule.name s).added (rule.hoisted rule.name s).supply).rules

/-- The supply once a declared rule has been dealt with. -/
def supplyAfter (rule : Rule) (s : NameSupply) : NameSupply :=
  (s.drawMany rule.name rule.body.nestedChoiceCount).2

theorem drained_hoisted (rule : Rule) (s : NameSupply) :
    names (offspring rule s) = (s.drawMany rule.name rule.body.nestedChoiceCount).1 ∧
      (drained rule.name (rule.hoisted rule.name s).added
        (rule.hoisted rule.name s).supply).supply = supplyAfter rule s := by
  -- The rule alone is a queue, and its first step leads to the queue in question.
  obtain ⟨hNames, hSupply⟩ := drained_names rule.name [rule] s
  rw [drained_cons_rules] at hNames
  rw [drained_cons_supply] at hSupply
  have hCount : nestedChoices [rule] = rule.body.nestedChoiceCount := by simp
  rw [hCount] at hNames hSupply
  exact ⟨List.tail_eq_of_cons_eq hNames, hSupply⟩

theorem names_offspring (rule : Rule) (s : NameSupply) :
    names (offspring rule s) = (s.drawMany rule.name rule.body.nestedChoiceCount).1 :=
  (drained_hoisted rule s).1

/-- A declared rule is left with the outline of its body. -/
theorem rewrites_offspring (rule : Rule) (s : NameSupply) :
    Rewrites (offspring rule s) rule (rule.hoisted rule.name s).result :=
  ⟨rfl, rule.outlinedBelow_hoisted rule.name s fun _ hMade => settled_drained hMade⟩

theorem offspring_symbols_perm (rule : Rule) (s : NameSupply) :
    ((rule.hoisted rule.name s).result.body.symbols ++ mentions (offspring rule s)).Perm
      (rule.body.symbols ++ names (offspring rule s)) := by
  have hQueue := drained_symbols_perm rule.name [rule] s
  rw [drained_cons_rules] at hQueue
  rw [List.perm_iff_count] at hQueue ⊢
  intro name
  have hQueue := hQueue name
  simp only [mentions_cons, mentions_nil, names_cons, names_nil, List.count_append,
    List.count_cons, List.count_nil] at hQueue ⊢
  have hName : (rule.hoisted rule.name s).result.name = rule.name := rfl
  rw [hName] at hQueue
  unfold offspring
  rw [List.nil_append] at hQueue
  omega

theorem isMade_offspring {rule : Rule} {s : NameSupply} {made : Rule}
    (h : made ∈ offspring rule s) :
    IsMade made ∧ made.body.hasNestedChoice = false ∧ (rule.body.Valid → made.body.Valid) := by
  obtain ⟨hMade, hFlat, hValid⟩ := drained_isMade _ _ _ (fun _ hAdded => isMade_of_mem_added hAdded)
    made h
  exact ⟨hMade, hFlat, fun hBody => hValid (Rule.hoisted_valid _ _ hBody).2⟩

theorem offspring_forward {rule : Rule} {s : NameSupply}
    (h : ∀ name ∈ rule.body.symbols, name ∈ s.taken) : Forward (offspring rule s) := by
  apply drained_forward _ _ _
  have hEmpty : Separate [] s := by constructor <;> simp
  exact hEmpty.step (by simp) h rule.name

/-- The names in use when a declared rule has been dealt with. -/
theorem mem_supplyAfter_taken {rule : Rule} {s : NameSupply} {name : Text} :
    name ∈ (supplyAfter rule s).taken ↔ name ∈ names (offspring rule s) ∨ name ∈ s.taken := by
  rw [names_offspring]
  exact NameSupply.mem_drawMany_taken

/-! ## One rule after another -/

/-- What becomes of declared rules when every name can be referred to. -/
def harvested (rules : List Rule) (s : NameSupply) : Harvest :=
  match rules with
  | [] => ⟨[], [], s⟩
  | rule :: rest =>
    if rule.isExtra then
      let others := harvested rest s
      { others with declared := rule :: others.declared }
    else
      let step := rule.hoisted rule.name s
      let drained := drained rule.name step.added step.supply
      let others := harvested rest drained.supply
      ⟨step.result :: others.declared, drained.rules ++ others.synthetic, others.supply⟩

theorem harvested_extra {rule : Rule} (h : rule.isExtra = true) (rest : List Rule)
    (s : NameSupply) :
    (harvested (rule :: rest) s).declared = rule :: (harvested rest s).declared ∧
      (harvested (rule :: rest) s).synthetic = (harvested rest s).synthetic := by
  rw [harvested, if_pos h]
  exact ⟨rfl, rfl⟩

theorem harvested_own {rule : Rule} (h : rule.isExtra = false) (rest : List Rule)
    (s : NameSupply) :
    (harvested (rule :: rest) s).declared =
        (rule.hoisted rule.name s).result :: (harvested rest (supplyAfter rule s)).declared ∧
      (harvested (rule :: rest) s).synthetic =
        offspring rule s ++ (harvested rest (supplyAfter rule s)).synthetic := by
  rw [harvested, if_neg (by simp [h])]
  simp only
  rw [(drained_hoisted rule s).2]
  exact ⟨rfl, rfl⟩

/-- Induction over rules that are hoisted one after another. -/
theorem harvested_induction {motive : List Rule → NameSupply → Prop}
    (nil : ∀ s, motive [] s)
    (extra : ∀ rule rest s, rule.isExtra = true → motive rest s → motive (rule :: rest) s)
    (own : ∀ rule rest s, rule.isExtra = false → motive rest (supplyAfter rule s) →
      motive (rule :: rest) s) :
    ∀ rules s, motive rules s := by
  intro rules
  induction rules with
  | nil => exact nil
  | cons rule rest ih =>
      intro s
      cases h : rule.isExtra with
      | true => exact extra rule rest s h (ih s)
      | false => exact own rule rest s h (ih _)

/-- What becomes of a rule: an extra stays, and any other is left with the outline of its body,
in which no nested choice is left. -/
structure Kept (added : List Rule) (rule rule' : Rule) : Prop where
  extra : rule.isExtra = true → rule' = rule
  own : rule.isExtra = false → Rewrites added rule rule' ∧ rule'.body.hasNestedChoice = false ∧
    (rule.body.Valid → rule'.body.Valid)

theorem Kept.mono {added more : List Rule} (hMore : ∀ rule ∈ added, rule ∈ more)
    {rule rule' : Rule} (h : Kept added rule rule') : Kept more rule rule' :=
  ⟨h.extra, fun hOwn => ⟨(h.own hOwn).1.mono hMore, (h.own hOwn).2⟩⟩

theorem Kept.name_eq {added : List Rule} {rule rule' : Rule} (h : Kept added rule rule') :
    rule'.name = rule.name := by
  cases hExtra : rule.isExtra with
  | true => rw [h.extra hExtra]
  | false => exact (h.own hExtra).1.name_eq

theorem Kept.isExtra_eq {added : List Rule} {rule rule' : Rule} (h : Kept added rule rule') :
    rule'.isExtra = rule.isExtra := by
  cases hExtra : rule.isExtra with
  | true => rw [h.extra hExtra, hExtra]
  | false =>
      rw [(h.own hExtra).1.1]
      exact hExtra

/-- What becomes of the declared rules, one by one. -/
theorem harvested_kept (rules : List Rule) (s : NameSupply) :
    rules.length = (harvested rules s).declared.length ∧
      ∀ pair ∈ rules.zip (harvested rules s).declared,
        Kept (harvested rules s).synthetic pair.1 pair.2 := by
  induction rules, s using harvested_induction with
  | nil s => exact ⟨rfl, by simp⟩
  | extra rule rest s hExtra ih =>
      obtain ⟨hDeclared, hSynthetic⟩ := harvested_extra hExtra rest s
      rw [hDeclared, hSynthetic]
      refine ⟨congrArg (· + 1) ih.1, ?_⟩
      intro pair hPair
      rw [List.zip_cons_cons] at hPair
      rcases List.mem_cons.1 hPair with rfl | hLater
      · exact ⟨fun _ => rfl, fun hOwn => absurd (hExtra.symm.trans hOwn) (by simp)⟩
      · exact ih.2 pair hLater
  | own rule rest s hOwn ih =>
      obtain ⟨hDeclared, hSynthetic⟩ := harvested_own hOwn rest s
      rw [hDeclared, hSynthetic]
      refine ⟨congrArg (· + 1) ih.1, ?_⟩
      intro pair hPair
      rw [List.zip_cons_cons] at hPair
      rcases List.mem_cons.1 hPair with rfl | hLater
      · refine ⟨fun hExtra => absurd (hExtra.symm.trans hOwn) (by simp), fun _ => ⟨?_, ?_, ?_⟩⟩
        · exact (rewrites_offspring rule s).mono fun made hMade => List.mem_append_left _ hMade
        · exact rule.hoisted_hasNestedChoice _ _
        · exact fun hValid => (Rule.hoisted_valid _ _ hValid).1
      · exact (ih.2 pair hLater).mono fun made hMade => List.mem_append_right _ hMade

theorem names_harvested_declared (rules : List Rule) (s : NameSupply) :
    names (harvested rules s).declared = names rules := by
  obtain ⟨hLength, hKept⟩ := harvested_kept rules s
  refine List.ext_getElem? fun i => ?_
  rw [names, names, List.getElem?_map, List.getElem?_map]
  by_cases hi : i < rules.length
  · have hi' : i < (harvested rules s).declared.length := by omega
    have hPair := hKept (rules[i], (harvested rules s).declared[i]) (mem_zip_iff.2
      ⟨i, List.getElem?_eq_getElem hi, List.getElem?_eq_getElem hi'⟩)
    rw [List.getElem?_eq_getElem hi, List.getElem?_eq_getElem hi', Option.map_some,
      Option.map_some, hPair.name_eq]
  · rw [List.getElem?_eq_none (by omega), List.getElem?_eq_none (by omega)]

/-- What the rules made are like. -/
theorem isMade_harvested (rules : List Rule) (s : NameSupply) :
    ∀ made ∈ (harvested rules s).synthetic, IsMade made ∧ made.body.hasNestedChoice = false ∧
      ((∀ rule ∈ rules, rule.body.Valid) → made.body.Valid) := by
  induction rules, s using harvested_induction with
  | nil s =>
      intro made hMade
      exact absurd hMade List.not_mem_nil
  | extra rule rest s hExtra ih =>
      intro made hMade
      rw [(harvested_extra hExtra rest s).2] at hMade
      obtain ⟨hIs, hFlat, hValid⟩ := ih made hMade
      exact ⟨hIs, hFlat, fun hAll => hValid fun other h => hAll other (List.mem_cons_of_mem _ h)⟩
  | own rule rest s hOwn ih =>
      intro made hMade
      rw [(harvested_own hOwn rest s).2] at hMade
      rcases List.mem_append.1 hMade with hFirst | hLater
      · obtain ⟨hIs, hFlat, hValid⟩ := isMade_offspring hFirst
        exact ⟨hIs, hFlat, fun hAll => hValid (hAll rule List.mem_cons_self)⟩
      · obtain ⟨hIs, hFlat, hValid⟩ := ih made hLater
        exact ⟨hIs, hFlat, fun hAll => hValid fun other h => hAll other (List.mem_cons_of_mem _ h)⟩

/-! ## The names made -/

/-- The names made were not in use, and no name is made twice. -/
theorem names_harvested_fresh (rules : List Rule) (s : NameSupply) :
    (names (harvested rules s).synthetic).Nodup ∧
      ∀ name ∈ names (harvested rules s).synthetic, name ∉ s.taken := by
  induction rules, s using harvested_induction with
  | nil s => exact ⟨List.nodup_nil, by simp [harvested]⟩
  | extra rule rest s hExtra ih =>
      rw [(harvested_extra hExtra rest s).2]
      exact ih
  | own rule rest s hOwn ih =>
      obtain ⟨hNodup, hFresh⟩ := ih
      rw [(harvested_own hOwn rest s).2, names_append]
      constructor
      · rw [List.nodup_append']
        refine ⟨?_, hNodup, ?_⟩
        · rw [names_offspring]
          exact NameSupply.drawMany_nodup _ _ _
        · intro name hFirst hLater
          exact hFresh name hLater (mem_supplyAfter_taken.2 (Or.inl hFirst))
      · intro name hName
        rcases List.mem_append.1 hName with hFirst | hLater
        · rw [names_offspring] at hFirst
          exact NameSupply.drawMany_notMem _ _ _ name hFirst
        · exact fun hTaken => hFresh name hLater (mem_supplyAfter_taken.2 (Or.inr hTaken))

/-! ## References -/

/-- The rules that are no extras. -/
def own (rules : List Rule) : List Rule := rules.filter (!·.isExtra)

theorem mem_own {rules : List Rule} {rule : Rule} :
    rule ∈ own rules ↔ rule ∈ rules ∧ rule.isExtra = false := by
  simp [own]

theorem own_cons_extra {rule : Rule} (h : rule.isExtra = true) (rest : List Rule) :
    own (rule :: rest) = own rest := by
  simp [own, h]

theorem own_cons_own {rule : Rule} (h : rule.isExtra = false) (rest : List Rule) :
    own (rule :: rest) = rule :: own rest := by
  simp [own, h]

/-- The rules that are no extras keep their names and their order. -/
theorem names_own_harvested (rules : List Rule) (s : NameSupply) :
    names (own (harvested rules s).declared) = names (own rules) := by
  induction rules, s using harvested_induction with
  | nil s => rfl
  | extra rule rest s hExtra ih =>
      rw [(harvested_extra hExtra rest s).1, own_cons_extra hExtra, own_cons_extra hExtra, ih]
  | own rule rest s hOwn ih =>
      have hResult : (rule.hoisted rule.name s).result.isExtra = false := hOwn
      rw [(harvested_own hOwn rest s).1, own_cons_own hOwn, own_cons_own hResult, names_cons,
        names_cons, ih]
      rfl

/-- Conservation of references over a harvest: what comes out mentions what went in, and every
rule made once. -/
theorem harvested_symbols_perm (rules : List Rule) (s : NameSupply) :
    (mentions (own (harvested rules s).declared) ++ mentions (harvested rules s).synthetic).Perm
      (mentions (own rules) ++ names (harvested rules s).synthetic) := by
  induction rules, s using harvested_induction with
  | nil s => exact List.Perm.refl _
  | extra rule rest s hExtra ih =>
      obtain ⟨hDeclared, hSynthetic⟩ := harvested_extra hExtra rest s
      rw [hDeclared, hSynthetic, own_cons_extra hExtra, own_cons_extra hExtra]
      exact ih
  | own rule rest s hOwn ih =>
      obtain ⟨hDeclared, hSynthetic⟩ := harvested_own hOwn rest s
      have hFirst := offspring_symbols_perm rule s
      have hResult : (rule.hoisted rule.name s).result.isExtra = false := hOwn
      rw [hDeclared, hSynthetic, own_cons_own hOwn, own_cons_own hResult]
      rw [List.perm_iff_count] at ih hFirst ⊢
      intro name
      have hFirst := hFirst name
      have hLater := ih name
      simp only [mentions_cons, mentions_append, names_append, List.count_append]
        at hFirst hLater ⊢
      omega

/-- What comes out of a harvest mentions what went in, or rules made. -/
theorem mentions_harvested {rules : List Rule} {s : NameSupply} {name : Text}
    (h : name ∈ mentions (own (harvested rules s).declared) ++
      mentions (harvested rules s).synthetic) :
    name ∈ mentions (own rules) ∨ name ∈ names (harvested rules s).synthetic :=
  List.mem_append.1 ((harvested_symbols_perm rules s).mem_iff.1 h)

/-- Lists of rules in forward order can be joined if no earlier rule is mentioned later. -/
theorem Forward.append {first later : List Rule} (hFirst : Forward first) (hLater : Forward later)
    (h : ∀ name ∈ names first, name ∉ mentions later) : Forward (first ++ later) := by
  induction first with
  | nil => exact hLater
  | cons rule rest ih =>
      refine ⟨?_, ih hFirst.2 fun name hName => h name (List.mem_cons_of_mem _ hName)⟩
      show rule.name ∉ mentions ((rule :: rest) ++ later)
      rw [mentions_append, List.mem_append]
      rintro (hOwn | hOther)
      · exact hFirst.1 hOwn
      · exact h rule.name List.mem_cons_self hOther

/-- If everything that is mentioned is in use, rules made are mentioned by earlier rules only. -/
theorem harvested_forward (rules : List Rule) (s : NameSupply)
    (h : ∀ name ∈ mentions (own rules), name ∈ s.taken) :
    Forward (harvested rules s).synthetic := by
  induction rules, s using harvested_induction with
  | nil s => trivial
  | extra rule rest s hExtra ih =>
      rw [own_cons_extra hExtra] at h
      rw [(harvested_extra hExtra rest s).2]
      exact ih h
  | own rule rest s hOwn ih =>
      rw [own_cons_own hOwn, mentions_cons] at h
      have hRest : ∀ name ∈ mentions (own rest), name ∈ s.taken := fun name hName =>
        h name (List.mem_append_right _ hName)
      rw [(harvested_own hOwn rest s).2]
      refine (offspring_forward fun name hName => h name (List.mem_append_left _ hName)).append
        (ih fun name hName => mem_supplyAfter_taken.2 (Or.inr (hRest name hName))) ?_
      -- The names of the first family are in use from then on, and were not in use before.
      intro name hName hMentioned
      rcases mentions_harvested (List.mem_append_right _ hMentioned) with hOld | hNew
      · rw [names_offspring] at hName
        exact NameSupply.drawMany_notMem _ _ _ name hName (hRest name hOld)
      · exact (names_harvested_fresh rest (supplyAfter rule s)).2 name hNew
          (mem_supplyAfter_taken.2 (Or.inl hName))

end Hoisting

end TreeTypes

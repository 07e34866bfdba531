import TreeTypes.Proofs.Hoisting.Outline

/-!
# The queue of one rule

What a step takes out of a body waits in a queue, and the queue is worked off
first in, first out. Here is what a whole queue comes to, whatever is in it and
whatever names are drawn; whether those can be referred to is a question of
its own, asked in `TreeTypes.Proofs.Hoisting.Success`.

* Its rules come out in their order, each with its name and flags, and behind
  them the rules made on the way (`drained_names`). The names of those are the
  next draws of the owner, as many as there are nested choices in the queue.
* Every body comes out as its outline over the rules that come out
  (`drained_outlined`), so none of them holds a nested choice any more.
* References are conserved (`drained_symbols_perm`).
* A rule that comes out is in the queue or is mentioned by one that comes out,
  so mentions lead from the queue to all of them (`forall_mem_names_drained`).
* A rule that comes out is mentioned by earlier rules only (`drained_forward`),
  provided that the queue itself does not mention the rules that it holds.

Each statement is an induction over the steps of the queue, and each uses the
law of one step and nothing else about it.
-/

namespace TreeTypes

namespace Hoisting

/-! ## Working off a queue -/

/-- What becomes of a queue when every name can be referred to. -/
def drained (owner : Text) (queue : List Rule) (s : NameSupply) : Drained :=
  match queue with
  | [] => ⟨[], s⟩
  | rule :: waiting =>
    let step := rule.hoisted owner s
    let rest := drained owner (waiting ++ step.added) step.supply
    ⟨step.result :: rest.rules, rest.supply⟩
  termination_by load queue
  decreasing_by
    have := load_hoisted_lt rule owner s
    simp only [load_append, load_cons]
    omega

theorem drained_nil (owner : Text) (s : NameSupply) : drained owner [] s = ⟨[], s⟩ := by
  rw [drained]

theorem drained_cons_rules (owner : Text) (rule : Rule) (waiting : List Rule) (s : NameSupply) :
    (drained owner (rule :: waiting) s).rules = (rule.hoisted owner s).result ::
      (drained owner (waiting ++ (rule.hoisted owner s).added)
        (rule.hoisted owner s).supply).rules := by
  rw [drained]

theorem drained_cons_supply (owner : Text) (rule : Rule) (waiting : List Rule) (s : NameSupply) :
    (drained owner (rule :: waiting) s).supply =
      (drained owner (waiting ++ (rule.hoisted owner s).added)
        (rule.hoisted owner s).supply).supply := by
  rw [drained]

/-- Induction over the steps of a queue. -/
theorem drained_induction (owner : Text) {motive : List Rule → NameSupply → Prop}
    (nil : ∀ s, motive [] s)
    (cons : ∀ rule waiting s,
      motive (waiting ++ (rule.hoisted owner s).added) (rule.hoisted owner s).supply →
        motive (rule :: waiting) s) :
    ∀ queue s, motive queue s :=
  drained.induct owner motive nil fun s rule waiting ih => cons rule waiting s ih

/-! ## Names -/

/-- The names that some rules bear. -/
def names (rules : List Rule) : List Text := rules.map Rule.name

@[simp] theorem names_nil : names [] = [] := rfl

@[simp] theorem names_cons (rule : Rule) (rest : List Rule) :
    names (rule :: rest) = rule.name :: names rest := rfl

@[simp] theorem names_append (a b : List Rule) : names (a ++ b) = names a ++ names b :=
  List.map_append

/-- The number of nested choices in some rules. -/
def nestedChoices (rules : List Rule) : Nat :=
  (rules.map fun rule => rule.body.nestedChoiceCount).sum

@[simp] theorem nestedChoices_nil : nestedChoices [] = 0 := rfl

@[simp] theorem nestedChoices_cons (rule : Rule) (rest : List Rule) :
    nestedChoices (rule :: rest) = rule.body.nestedChoiceCount + nestedChoices rest := by
  simp [nestedChoices]

@[simp] theorem nestedChoices_append (a b : List Rule) :
    nestedChoices (a ++ b) = nestedChoices a + nestedChoices b := by
  simp [nestedChoices]

/-- The nested choices of a body are those taken out and those nested in them. -/
theorem nestedChoiceCount_eq_hoisted (rule : Rule) (owner : Text) (s : NameSupply) :
    rule.body.nestedChoiceCount =
      rule.body.choicesBelow.length + nestedChoices (rule.hoisted owner s).added := by
  have hBodies : nestedChoices (rule.hoisted owner s).added =
      (rule.body.choicesBelow.map Expr.nestedChoiceCount).sum := by
    rw [← rule.hoisted_added_bodies owner s, List.map_map]
    rfl
  rw [hBodies]
  exact rule.body.nestedChoiceCount_eq

/-- The rules of a queue come out in order, followed by rules named after the owner's next
draws, one for each nested choice. -/
theorem drained_names (owner : Text) (queue : List Rule) (s : NameSupply) :
    names (drained owner queue s).rules =
        names queue ++ (s.drawMany owner (nestedChoices queue)).1 ∧
      (drained owner queue s).supply = (s.drawMany owner (nestedChoices queue)).2 := by
  induction queue, s using drained_induction owner with
  | nil s =>
      rw [drained_nil]
      exact ⟨rfl, rfl⟩
  | cons rule waiting s ih =>
      obtain ⟨hNames, hSupply⟩ := ih
      have hCount : nestedChoices (rule :: waiting) = rule.body.choicesBelow.length +
          nestedChoices (waiting ++ (rule.hoisted owner s).added) := by
        rw [nestedChoices_cons, nestedChoices_append, nestedChoiceCount_eq_hoisted rule owner s]
        omega
      have hAdded : names (rule.hoisted owner s).added =
          (s.drawMany owner rule.body.choicesBelow.length).1 := rule.hoisted_added_names owner s
      rw [drained_cons_rules, drained_cons_supply, names_cons, hNames, hSupply, hCount,
        NameSupply.drawMany_add, rule.hoisted_supply owner s, names_append, hAdded, names_cons,
        List.append_assoc]
      exact ⟨rfl, rfl⟩

theorem length_drained (owner : Text) (queue : List Rule) (s : NameSupply) :
    queue.length ≤ (drained owner queue s).rules.length := by
  have hNames := congrArg List.length (drained_names owner queue s).1
  rw [List.length_append, names, names, List.length_map, List.length_map] at hNames
  omega

/-! ## Bodies -/

/-- What comes out of a queue for a rule: the same rule with the outline of its body. -/
def Rewrites (added : List Rule) (rule rule' : Rule) : Prop :=
  rule' = { rule with body := rule'.body } ∧ Expr.OutlinedBelow added rule.body rule'.body

theorem Rewrites.mono {added more : List Rule} (hMore : ∀ rule ∈ added, rule ∈ more)
    {rule rule' : Rule} (h : Rewrites added rule rule') : Rewrites more rule rule' :=
  ⟨h.1, h.2.mono hMore⟩

theorem Rewrites.name_eq {added : List Rule} {rule rule' : Rule}
    (h : Rewrites added rule rule') : rule'.name = rule.name := by
  rw [h.1]

/-- The rules of a queue come out with their bodies outlined, in order. -/
theorem drained_outlined (owner : Text) (queue : List Rule) (s : NameSupply) :
    ∀ pair ∈ queue.zip (drained owner queue s).rules,
      Rewrites (drained owner queue s).rules pair.1 pair.2 := by
  induction queue, s using drained_induction owner with
  | nil s =>
      intro pair hPair
      exact absurd hPair (by simp)
  | cons rule waiting s ih =>
      rw [drained_cons_rules]
      have hMore : ∀ later ∈ (drained owner (waiting ++ (rule.hoisted owner s).added)
          (rule.hoisted owner s).supply).rules, later ∈ (rule.hoisted owner s).result ::
            (drained owner (waiting ++ (rule.hoisted owner s).added)
              (rule.hoisted owner s).supply).rules :=
        fun later hLater => List.mem_cons_of_mem _ hLater
      intro pair hPair
      rw [List.zip_cons_cons] at hPair
      rcases List.mem_cons.1 hPair with rfl | hWaiting
      · refine ⟨rfl, Rule.outlinedBelow_hoisted rule owner s ?_⟩
        intro made hMade
        obtain ⟨made', hPartner⟩ := exists_mem_zip
          (length_drained owner (waiting ++ (rule.hoisted owner s).added)
            (rule.hoisted owner s).supply)
          (List.mem_append_right waiting hMade)
        have hRewrites := ih _ hPartner
        exact ⟨made', hMore made' (List.of_mem_zip hPartner).2, hRewrites.name_eq,
          hRewrites.2.mono hMore⟩
      · exact (ih pair (mem_zip_append_left hWaiting)).mono hMore

/-- The rules of a queue are settled by what comes out. -/
theorem settled_drained {owner : Text} {queue : List Rule} {s : NameSupply} {rule : Rule}
    (h : rule ∈ queue) : Expr.Settled (drained owner queue s).rules rule := by
  obtain ⟨rule', hPair⟩ := exists_mem_zip (length_drained owner queue s) h
  have hRewrites := drained_outlined owner queue s _ hPair
  exact ⟨rule', (List.of_mem_zip hPair).2, hRewrites.name_eq, hRewrites.2⟩

/-- What rules made of choices look like: they are no extras, bear the mark of hoisting and hold
a choice. -/
structure IsMade (rule : Rule) : Prop where
  isExtra : rule.isExtra = false
  synthetic : rule.synthetic = true
  body : ∃ members, rule.body = .choice members

theorem isMade_of_mem_added {rule : Rule} {owner : Text} {s : NameSupply} {made : Rule}
    (h : made ∈ (rule.hoisted owner s).added) : IsMade made := by
  obtain ⟨hExtra, hSynthetic, hBody⟩ := rule.mem_hoisted_added owner s h
  obtain ⟨child, -, hMaximal⟩ := List.mem_flatMap.1 hBody
  exact ⟨hExtra, hSynthetic, Expr.exists_eq_choice_of_mem_maximalChoices hMaximal⟩

theorem IsMade.hoisted {rule : Rule} (h : IsMade rule) (owner : Text) (s : NameSupply) :
    IsMade (rule.hoisted owner s).result := by
  obtain ⟨members, hBody⟩ := h.body
  refine ⟨h.isExtra, h.synthetic, ?_⟩
  show ∃ members', (rule.body.extractBelow owner s).result = .choice members'
  rw [hBody]
  exact ⟨_, rfl⟩

/-- All that comes out of a queue of rules made of choices is such a rule, without a nested
choice, and valid if the queue was. -/
theorem drained_isMade (owner : Text) (queue : List Rule) (s : NameSupply)
    (h : ∀ rule ∈ queue, IsMade rule) : ∀ rule ∈ (drained owner queue s).rules,
      IsMade rule ∧ rule.body.hasNestedChoice = false ∧
        ((∀ waiting ∈ queue, waiting.body.Valid) → rule.body.Valid) := by
  induction queue, s using drained_induction owner with
  | nil s =>
      intro rule hRule
      rw [drained_nil] at hRule
      exact absurd hRule List.not_mem_nil
  | cons first waiting s ih =>
      intro rule hRule
      rw [drained_cons_rules] at hRule
      rcases List.mem_cons.1 hRule with rfl | hLater
      · refine ⟨(h first List.mem_cons_self).hoisted owner s,
          first.hoisted_hasNestedChoice owner s, ?_⟩
        intro hValid
        exact (Rule.hoisted_valid owner s (hValid first List.mem_cons_self)).1
      · have hQueue : ∀ rule ∈ waiting ++ (first.hoisted owner s).added, IsMade rule := by
          intro rule hRule
          rcases List.mem_append.1 hRule with hWaiting | hAdded
          · exact h rule (List.mem_cons_of_mem _ hWaiting)
          · exact isMade_of_mem_added hAdded
        obtain ⟨hMade, hFlat, hValid⟩ := ih hQueue rule hLater
        refine ⟨hMade, hFlat, fun hAll => hValid ?_⟩
        intro other hOther
        rcases List.mem_append.1 hOther with hWaiting | hAdded
        · exact hAll other (List.mem_cons_of_mem _ hWaiting)
        · exact (Rule.hoisted_valid owner s (hAll first List.mem_cons_self)).2 other hAdded

/-! ## References -/

/-- The names that the bodies of some rules mention, with repetitions. -/
def mentions (rules : List Rule) : List Text := rules.flatMap fun rule => rule.body.symbols

@[simp] theorem mentions_nil : mentions [] = [] := rfl

@[simp] theorem mentions_cons (rule : Rule) (rest : List Rule) :
    mentions (rule :: rest) = rule.body.symbols ++ mentions rest := by
  simp [mentions]

@[simp] theorem mentions_append (a b : List Rule) :
    mentions (a ++ b) = mentions a ++ mentions b := by
  simp [mentions]

theorem mem_mentions {rules : List Rule} {name : Text} :
    name ∈ mentions rules ↔ ∃ rule ∈ rules, name ∈ rule.body.symbols := List.mem_flatMap

/-- Conservation of references over a queue: what comes out mentions what the queue mentioned,
and every rule made on the way once. -/
theorem drained_symbols_perm (owner : Text) (queue : List Rule) (s : NameSupply) :
    (mentions (drained owner queue s).rules ++ names queue).Perm
      (mentions queue ++ names (drained owner queue s).rules) := by
  induction queue, s using drained_induction owner with
  | nil s => rw [drained_nil]
  | cons rule waiting s ih =>
      have hStep : ((rule.hoisted owner s).result.body.symbols ++
          mentions (rule.hoisted owner s).added).Perm
            (rule.body.symbols ++ names (rule.hoisted owner s).added) :=
        rule.hoisted_symbols_perm owner s
      rw [List.perm_iff_count] at ih hStep ⊢
      intro name
      have hStep := hStep name
      have hLater := ih name
      have hName : (rule.hoisted owner s).result.name = rule.name := rfl
      simp only [drained_cons_rules, mentions_cons, mentions_append, names_cons, names_append,
        List.count_append, List.count_cons, hName] at hLater ⊢
      simp only [List.count_append] at hStep
      omega

/-- What comes out of a queue mentions what the queue mentioned, or names drawn on the way. -/
theorem mentions_drained {owner : Text} {queue : List Rule} {s : NameSupply} {name : Text}
    (h : name ∈ mentions (drained owner queue s).rules) :
    name ∈ mentions queue ∨ name ∈ (s.drawMany owner (nestedChoices queue)).1 := by
  have hPerm := drained_symbols_perm owner queue s
  rw [List.perm_iff_count] at hPerm
  have hCount := hPerm name
  rw [(drained_names owner queue s).1] at hCount
  simp only [List.count_append] at hCount
  have hPositive : 0 < (mentions (drained owner queue s).rules).count name := List.count_pos_iff.2 h
  by_cases hQueue : name ∈ mentions queue
  · exact Or.inl hQueue
  · rw [List.count_eq_zero_of_not_mem hQueue] at hCount
    exact Or.inr (List.count_pos_iff.1 (by omega))

/-- What the rules of a queue have in common, and pass on to the rules that they mention, is common
to all that comes out: what a step takes out is mentioned by what it leaves. -/
theorem forall_mem_names_drained {P : Text → Prop} (owner : Text) (queue : List Rule)
    (s : NameSupply)
    (hStep : ∀ rule ∈ (drained owner queue s).rules, P rule.name →
      ∀ name ∈ rule.body.symbols, P name)
    (hQueue : ∀ name ∈ names queue, P name) :
    ∀ name ∈ names (drained owner queue s).rules, P name := by
  induction queue, s using drained_induction owner with
  | nil s =>
      rw [drained_nil]
      intro name hName
      exact absurd hName List.not_mem_nil
  | cons rule waiting s ih =>
      rw [drained_cons_rules] at hStep ⊢
      have hFirst : P rule.name := hQueue rule.name List.mem_cons_self
      intro name hName
      rcases List.mem_cons.1 hName with rfl | hLater
      · exact hFirst
      · refine ih (fun other hOther => hStep other (List.mem_cons_of_mem _ hOther)) ?_ name hLater
        intro other hOther
        rw [names_append] at hOther
        rcases List.mem_append.1 hOther with hWaiting | hAdded
        · exact hQueue other (List.mem_cons_of_mem _ hWaiting)
        · obtain ⟨made, hMade, rfl⟩ := List.mem_map.1 hAdded
          exact hStep _ List.mem_cons_self hFirst _ (rule.name_mem_symbols_hoisted owner s hMade)

/-! ## The order of references -/

/-- No rule is mentioned by itself or by a later rule. -/
def Forward : List Rule → Prop
  | [] => True
  | rule :: rest => rule.name ∉ mentions (rule :: rest) ∧ Forward rest

/-- In forward order a rule stands behind the rule that mentions it. -/
theorem Forward.sublist {rules : List Rule} (h : Forward rules) {rule : Rule}
    (hRule : rule ∈ rules) {name : Text} (hMentioned : name ∈ rule.body.symbols)
    (hName : name ∈ names rules) : [rule.name, name].Sublist (names rules) := by
  induction rules with
  | nil => exact absurd hRule List.not_mem_nil
  | cons first rest ih =>
      have hRest : name ∈ names rest := by
        rcases List.mem_cons.1 hName with rfl | hRest
        · exact absurd (mem_mentions.2 ⟨rule, hRule, hMentioned⟩) h.1
        · exact hRest
      rw [names_cons]
      rcases List.mem_cons.1 hRule with rfl | hLater
      · exact (List.singleton_sublist.2 hRest).cons_cons rule.name
      · exact (ih h.2 hLater hRest).cons first.name

/-- In a list without repetitions, what stands behind has the larger index. -/
theorem idxOf_lt_of_sublist {texts : List Text} (hNodup : texts.Nodup) {a b : Text}
    (h : [a, b].Sublist texts) : texts.idxOf a < texts.idxOf b := by
  have hParts : ([a] ++ [b]).Sublist texts := h
  obtain ⟨before, after, rfl, hA, hB⟩ := List.append_sublist_iff.1 hParts
  have hBefore : a ∈ before := List.singleton_sublist.1 hA
  have hAfter : b ∈ after := List.singleton_sublist.1 hB
  have hNot : b ∉ before := fun hBoth => (List.nodup_append'.1 hNodup).2.2 hBoth hAfter
  rw [List.idxOf_append_of_mem hBefore, List.idxOf_append_of_notMem hNot]
  have hBound := List.idxOf_lt_length_of_mem hBefore
  omega

/-- What a queue holds is not mentioned in it, and all names that occur in it are in use. -/
structure Separate (queue : List Rule) (s : NameSupply) : Prop where
  unmentioned : ∀ name ∈ names queue, name ∉ mentions queue
  names_taken : ∀ name ∈ names queue, name ∈ s.taken
  mentions_taken : ∀ name ∈ mentions queue, name ∈ s.taken

/-- The rules that a step makes mention what the rule mentioned. -/
theorem mentions_hoisted_added {rule : Rule} {owner : Text} {s : NameSupply} {name : Text}
    (h : name ∈ mentions (rule.hoisted owner s).added) : name ∈ rule.body.symbols := by
  obtain ⟨made, hMade, hName⟩ := mem_mentions.1 h
  obtain ⟨-, -, hChoice⟩ := rule.mem_hoisted_added owner s hMade
  obtain ⟨child, hChild, hMaximal⟩ := List.mem_flatMap.1 hChoice
  exact Expr.mem_symbols_of_mem_children hChild
    (Expr.mem_symbols_of_mem_maximalChoices hMaximal hName)

/-- What a step makes of a rule can join a queue that is separate and that the rule does not
mention: the names that are drawn were not in use. -/
theorem Separate.step {rule : Rule} {waiting : List Rule} {s : NameSupply}
    (h : Separate waiting s) (hUnmentioned : ∀ name ∈ names waiting, name ∉ rule.body.symbols)
    (hUsed : ∀ name ∈ rule.body.symbols, name ∈ s.taken) (owner : Text) :
    Separate (waiting ++ (rule.hoisted owner s).added) (rule.hoisted owner s).supply := by
  have hNames : names (rule.hoisted owner s).added =
      (s.drawMany owner rule.body.choicesBelow.length).1 := rule.hoisted_added_names owner s
  have hMentions : ∀ name ∈ mentions (waiting ++ (rule.hoisted owner s).added),
      name ∈ mentions waiting ∨ name ∈ rule.body.symbols := by
    intro name hName
    rw [mentions_append] at hName
    exact (List.mem_append.1 hName).imp id mentions_hoisted_added
  have hOld : ∀ name ∈ mentions (waiting ++ (rule.hoisted owner s).added), name ∈ s.taken := by
    intro name hName
    rcases hMentions name hName with hWaiting | hBody
    · exact h.mentions_taken name hWaiting
    · exact hUsed name hBody
  have hTaken : ∀ name ∈ s.taken, name ∈ (rule.hoisted owner s).supply.taken := by
    intro name hName
    rw [rule.hoisted_supply owner s]
    exact NameSupply.mem_drawMany_taken.2 (Or.inr hName)
  constructor
  · intro name hName hMentioned
    rw [names_append] at hName
    rcases List.mem_append.1 hName with hWaiting | hAdded
    · rcases hMentions name hMentioned with hEarlier | hBody
      · exact h.unmentioned name hWaiting hEarlier
      · exact hUnmentioned name hWaiting hBody
    · rw [hNames] at hAdded
      exact NameSupply.drawMany_notMem owner _ s name hAdded (hOld name hMentioned)
  · intro name hName
    rw [names_append] at hName
    rcases List.mem_append.1 hName with hWaiting | hAdded
    · exact hTaken name (h.names_taken name hWaiting)
    · rw [hNames] at hAdded
      rw [rule.hoisted_supply owner s]
      exact NameSupply.mem_drawMany_taken.2 (Or.inl hAdded)
  · intro name hName
    exact hTaken name (hOld name hName)

/-- What comes out of a separate queue is mentioned by earlier rules only. -/
theorem drained_forward (owner : Text) (queue : List Rule) (s : NameSupply)
    (h : Separate queue s) : Forward (drained owner queue s).rules := by
  induction queue, s using drained_induction owner with
  | nil s =>
      rw [drained_nil]
      trivial
  | cons rule waiting s ih =>
      have hUsed : rule.name ∈ s.taken := h.names_taken _ List.mem_cons_self
      have hOwn : rule.name ∉ mentions (rule :: waiting) := h.unmentioned _ List.mem_cons_self
      have hWaiting : Separate waiting s := by
        constructor
        · intro name hName hMentioned
          apply h.unmentioned name (List.mem_cons_of_mem _ hName)
          rw [mentions_cons]
          exact List.mem_append_right _ hMentioned
        · intro name hName
          exact h.names_taken name (List.mem_cons_of_mem _ hName)
        · intro name hName
          apply h.mentions_taken name
          rw [mentions_cons]
          exact List.mem_append_right _ hName
      have hNext : Separate (waiting ++ (rule.hoisted owner s).added)
          (rule.hoisted owner s).supply := hWaiting.step
        (fun name hName hBody => h.unmentioned name (List.mem_cons_of_mem _ hName)
          (by rw [mentions_cons]; exact List.mem_append_left _ hBody))
        (fun name hBody => h.mentions_taken name
          (by rw [mentions_cons]; exact List.mem_append_left _ hBody)) owner
      rw [drained_cons_rules]
      refine ⟨?_, ih hNext⟩
      intro hMentioned
      -- What the head and the later rules mention is what the whole queue comes to mention.
      rw [← drained_cons_rules] at hMentioned
      rcases mentions_drained hMentioned with hQueue | hDrawn
      · exact hOwn hQueue
      · exact NameSupply.drawMany_notMem owner _ s _ hDrawn hUsed

end Hoisting

end TreeTypes

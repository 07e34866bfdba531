import TreeTypes.Proofs.Hoisting.Step

/-!
# An expression and what hoisting leaves of it

Hoisting works in rounds: what one round takes out is rewritten by a later
one. The outcome needs no rounds. `Outlined added e e'` says that `e'` is `e`
with every choice replaced by a reference to a rule among `added`, whose body
is that choice with its members outlined in turn; everything else, the kinds
of terminals and repetitions and the order of members included, is the same.
`OutlinedBelow` says so of a whole body, whose topmost choice stays.

The relation only looks rules up by membership, so it survives when further
rules are added. That is why it can be established from the end of the queue
backwards, and why nothing has to be assumed about names here.

## Main results

* `Expr.Outlined.mono`, `Expr.OutlinedBelow.mono` — more rules do no harm.
* `Rule.outlinedBelow_hoisted` — a step outlines a body, once the rules that it
  makes have been dealt with.
-/

namespace TreeTypes

/-! ## Corresponding members -/

section Zip

variable {α β γ : Type} {as : List α} {bs : List β} {cs : List γ}

/-- Partners stand at the same place. -/
theorem mem_zip_iff {pair : α × β} :
    pair ∈ as.zip bs ↔ ∃ i : Nat, as[i]? = some pair.1 ∧ bs[i]? = some pair.2 := by
  rw [List.mem_iff_getElem?]
  simp only [List.getElem?_zip_eq_some]

/-- A list is not empty if it is as long as one that is not. -/
theorem isEmpty_eq_false_of_length_eq (hLength : as.length = bs.length) (h : as ≠ []) :
    bs.isEmpty = false := by
  rw [List.isEmpty_eq_false_iff, ← List.length_pos_iff, ← hLength, List.length_pos_iff]
  exact h

/-- Every member of a list has a partner in a list that is no shorter. -/
theorem exists_mem_zip {a : α} (hLength : as.length ≤ bs.length) (ha : a ∈ as) :
    ∃ b, (a, b) ∈ as.zip bs := by
  obtain ⟨i, hi, rfl⟩ := List.mem_iff_getElem.1 ha
  have hb : i < bs.length := by omega
  exact ⟨bs[i], mem_zip_iff.2 ⟨i, List.getElem?_eq_getElem hi, List.getElem?_eq_getElem hb⟩⟩

/-- Every member of a list has a partner before it in a list that is no shorter. -/
theorem exists_mem_zip_right {b : β} (hLength : bs.length ≤ as.length) (hb : b ∈ bs) :
    ∃ a, (a, b) ∈ as.zip bs := by
  obtain ⟨i, hi, rfl⟩ := List.mem_iff_getElem.1 hb
  have ha : i < as.length := by omega
  exact ⟨as[i], mem_zip_iff.2 ⟨i, List.getElem?_eq_getElem ha, List.getElem?_eq_getElem hi⟩⟩

/-- What stands at a place of a list has a partner at that place of a list as long. -/
theorem exists_getElem?_mem_zip {a : α} {i : Nat} (hLength : as.length = bs.length)
    (ha : as[i]? = some a) : ∃ b, bs[i]? = some b ∧ (a, b) ∈ as.zip bs := by
  have hi := (List.getElem?_eq_some_iff.1 ha).1
  have hb := List.getElem?_eq_getElem (hLength ▸ hi)
  exact ⟨_, hb, mem_zip_iff.2 ⟨i, ha, hb⟩⟩

/-- What stands at a place of a list has a partner before it at that place of a list as long. -/
theorem exists_getElem?_mem_zip_right {b : β} {i : Nat} (hLength : as.length = bs.length)
    (hb : bs[i]? = some b) : ∃ a, as[i]? = some a ∧ (a, b) ∈ as.zip bs := by
  have hi := (List.getElem?_eq_some_iff.1 hb).1
  have ha := List.getElem?_eq_getElem (hLength.symm ▸ hi)
  exact ⟨_, ha, mem_zip_iff.2 ⟨i, ha, hb⟩⟩

/-- Partners stay partners when the first list grows at its end. -/
theorem mem_zip_append_left {extra : List α} {pair : α × β} (h : pair ∈ as.zip bs) :
    pair ∈ (as ++ extra).zip bs := by
  obtain ⟨i, hFirst, hSecond⟩ := mem_zip_iff.1 h
  have hi := (List.getElem?_eq_some_iff.1 hFirst).1
  exact mem_zip_iff.2 ⟨i, by rw [List.getElem?_append_left hi, hFirst], hSecond⟩

/-- Partners of partners are partners, for the first two of three lists. -/
theorem exists_mem_zip_of_mem_zip_right {b : β} {c : γ} (hLength : as.length = bs.length)
    (h : (b, c) ∈ bs.zip cs) : ∃ a, (a, b) ∈ as.zip bs ∧ (a, c) ∈ as.zip cs := by
  obtain ⟨i, hb, hc⟩ := mem_zip_iff.1 h
  have hi : i < as.length := by
    rw [hLength]
    exact (List.getElem?_eq_some_iff.1 hb).1
  have ha : as[i]? = some as[i] := List.getElem?_eq_getElem hi
  exact ⟨as[i], mem_zip_iff.2 ⟨i, ha, hb⟩, mem_zip_iff.2 ⟨i, ha, hc⟩⟩

/-- Partners of partners are partners, for the outer two of three lists. -/
theorem exists_mem_zip_of_mem_zip_left {a : α} {c : γ} (hLength : as.length = bs.length)
    (h : (a, c) ∈ as.zip cs) : ∃ b, (a, b) ∈ as.zip bs ∧ (b, c) ∈ bs.zip cs := by
  obtain ⟨i, ha, hc⟩ := mem_zip_iff.1 h
  have hi : i < bs.length := by
    rw [← hLength]
    exact (List.getElem?_eq_some_iff.1 ha).1
  have hb : bs[i]? = some bs[i] := List.getElem?_eq_getElem hi
  exact ⟨bs[i], mem_zip_iff.2 ⟨i, ha, hb⟩, mem_zip_iff.2 ⟨i, hb, hc⟩⟩

/-- Lists whose members contribute what their partners contribute come to the same. -/
theorem flatMap_eq_of_mem_zip {f : α → List γ} {f' : β → List γ} (hLength : as.length = bs.length)
    (h : ∀ pair ∈ as.zip bs, f' pair.2 = f pair.1) : bs.flatMap f' = as.flatMap f := by
  induction as generalizing bs with
  | nil => rw [List.length_eq_zero_iff.1 hLength.symm, List.flatMap_nil, List.flatMap_nil]
  | cons a rest ih =>
      cases bs with
      | nil => exact absurd hLength (by simp)
      | cons b others =>
          rw [List.flatMap_cons, List.flatMap_cons, h (a, b) List.mem_cons_self,
            ih (by simpa using hLength) fun pair hPair => h pair (List.mem_cons_of_mem _ hPair)]

/-- Lists whose members have the images of their partners have the same image. -/
theorem map_eq_map_of_mem_zip {f : α → γ} {f' : β → γ} (hLength : as.length = bs.length)
    (h : ∀ pair ∈ as.zip bs, f' pair.2 = f pair.1) : bs.map f' = as.map f := by
  rw [List.map_eq_flatMap, List.map_eq_flatMap]
  exact flatMap_eq_of_mem_zip hLength fun pair hPair => congrArg ([·]) (h pair hPair)

/-- A list whose members are images of their partners is an image. -/
theorem map_eq_of_mem_zip {f : β → α} (hLength : as.length = bs.length)
    (h : ∀ pair ∈ as.zip bs, f pair.2 = pair.1) : bs.map f = as := by
  rw [← List.map_id as]
  exact map_eq_map_of_mem_zip hLength h

end Zip

namespace Expr

/-! ## The relation -/

/-- The second expression is the first one with its choices replaced by references to rules. -/
inductive Outlined (added : List Rule) : Expr → Expr → Prop
  | symbol (name : Text) : Outlined added (.symbol name) (.symbol name)
  | terminal (kind : TerminalKind) (value : Text) :
      Outlined added (.terminal kind value) (.terminal kind value)
  | blank : Outlined added .blank .blank
  | sequence {members members' : List Expr} (hLength : members.length = members'.length)
      (hMembers : ∀ pair ∈ members.zip members', Outlined added pair.1 pair.2) :
      Outlined added (.sequence members) (.sequence members')
  | repetition {kind : RepetitionKind} {content content' : Expr}
      (hContent : Outlined added content content') :
      Outlined added (.repetition kind content) (.repetition kind content')
  /-- The choice has become the body of a rule. -/
  | choice {members members' : List Expr} {rule : Rule} (hRule : rule ∈ added)
      (hBody : rule.body = .choice members') (hLength : members.length = members'.length)
      (hMembers : ∀ pair ∈ members.zip members', Outlined added pair.1 pair.2) :
      Outlined added (.choice members) (.symbol rule.name)

/-- The second body is the first one with the choices below its top replaced by references. -/
inductive OutlinedBelow (added : List Rule) : Expr → Expr → Prop
  | choice {members members' : List Expr} (hLength : members.length = members'.length)
      (hMembers : ∀ pair ∈ members.zip members', Outlined added pair.1 pair.2) :
      OutlinedBelow added (.choice members) (.choice members')
  | other {e e' : Expr} (hNot : ∀ members, e ≠ .choice members) (h : Outlined added e e') :
      OutlinedBelow added e e'

/-- More rules do no harm. -/
theorem Outlined.mono {added more : List Rule} (hMore : ∀ rule ∈ added, rule ∈ more)
    {e e' : Expr} (h : Outlined added e e') : Outlined more e e' := by
  induction h with
  | symbol name => exact .symbol name
  | terminal kind value => exact .terminal kind value
  | blank => exact .blank
  | sequence hLength _ ih => exact .sequence hLength ih
  | repetition _ ih => exact .repetition ih
  | choice hRule hBody hLength _ ih => exact .choice (hMore _ hRule) hBody hLength ih

theorem OutlinedBelow.mono {added more : List Rule} (hMore : ∀ rule ∈ added, rule ∈ more)
    {e e' : Expr} (h : OutlinedBelow added e e') : OutlinedBelow more e e' := by
  cases h with
  | choice hLength hMembers =>
      exact .choice hLength fun pair hPair => (hMembers pair hPair).mono hMore
  | other hNot hOutlined => exact .other hNot (hOutlined.mono hMore)

/-- A nested choice has been replaced by the name of a rule that holds it. -/
theorem OutlinedBelow.outlined_choice {added : List Rule} {rule : Rule} {members : List Expr}
    (hRule : rule ∈ added) (h : OutlinedBelow added (.choice members) rule.body) :
    Outlined added (.choice members) (.symbol rule.name) := by
  generalize hBody : rule.body = body at h
  cases h with
  | choice hLength hMembers => exact .choice hRule hBody hLength hMembers
  | other hNot _ => exact absurd rfl (hNot members)

/-- Only a choice is treated differently at the top. -/
theorem OutlinedBelow.outlined {added : List Rule} {e e' : Expr}
    (hNot : ∀ members, e' ≠ .choice members) (h : OutlinedBelow added e e') :
    Outlined added e e' := by
  cases h with
  | choice hLength hMembers => exact absurd rfl (hNot _)
  | other _ hOutlined => exact hOutlined

/-- An expression without choices is its own outline. -/
theorem outlined_refl (added : List Rule) {e : Expr} (h : e.containsChoice = false) :
    Outlined added e e := by
  induction e using structuralInduction with
  | symbol name => exact .symbol name
  | terminal kind value => exact .terminal kind value
  | blank => exact .blank
  | sequence members ih =>
      rw [containsChoice, membersContainChoice_eq, List.any_eq_false] at h
      refine .sequence rfl ?_
      intro pair hPair
      obtain ⟨i, hFirst, hSecond⟩ := mem_zip_iff.1 hPair
      have hSame : pair.2 = pair.1 := Option.some.inj (hSecond.symm.trans hFirst)
      have hMem := List.mem_of_getElem? hFirst
      rw [hSame]
      exact ih pair.1 hMem (by simpa using h pair.1 hMem)
  | choice members ih => exact absurd h (by simp [containsChoice])
  | repetition kind content ih => exact .repetition (ih h)

/-- A body without nested choices is its own outline. -/
theorem outlinedBelow_refl (added : List Rule) {e : Expr} (h : e.hasNestedChoice = false) :
    OutlinedBelow added e e := by
  have hChildren : ∀ child ∈ e.children, child.containsChoice = false := by
    intro child hChild
    rw [hasNestedChoice, List.any_eq_false] at h
    simpa using h child hChild
  cases e with
  | choice members =>
      have hSequence : (sequence members).containsChoice = false := by
        rw [containsChoice, membersContainChoice_eq, List.any_eq_false]
        intro member hMember
        simpa using hChildren member hMember
      cases outlined_refl added hSequence with
      | sequence hLength hMembers => exact .choice hLength hMembers
  | sequence members =>
      refine .other (fun _ => by simp) (outlined_refl added ?_)
      rw [containsChoice, membersContainChoice_eq, List.any_eq_false]
      intro member hMember
      simpa using hChildren member hMember
  | repetition kind content =>
      refine .other (fun _ => by simp) (outlined_refl added ?_)
      exact hChildren content (List.mem_singleton.2 rfl)
  | symbol name => exact .other (fun _ => by simp) (.symbol name)
  | terminal kind value => exact .other (fun _ => by simp) (.terminal kind value)
  | blank => exact .other (fun _ => by simp) .blank

/-! ## A step outlines -/

/-- A rule has been dealt with: a rule of its name holds the outline of its body. -/
def Settled (added : List Rule) (rule : Rule) : Prop :=
  ∃ rule' ∈ added, rule'.name = rule.name ∧ OutlinedBelow added rule.body rule'.body

mutual

/-- Once the rules made from an expression are settled, what is left of it is its outline. -/
theorem outlined_extract {added : List Rule} (owner : Text) (e : Expr) (s : NameSupply)
    (h : ∀ rule ∈ (e.extract owner s).added, Settled added rule) :
    Outlined added e (e.extract owner s).result := by
  cases e with
  | choice members =>
      obtain ⟨rule, hRule, hName, hBody⟩ := h _ List.mem_cons_self
      have hOutlined := OutlinedBelow.outlined_choice hRule hBody
      rw [hName] at hOutlined
      exact hOutlined
  | sequence members =>
      rw [extract] at h ⊢
      obtain ⟨hLength, hMembers⟩ := outlined_extractMembers owner members s h
      exact .sequence hLength hMembers
  | repetition kind content =>
      rw [extract] at h ⊢
      exact .repetition (outlined_extract owner content s h)
  | symbol name => exact .symbol name
  | terminal kind value => exact .terminal kind value
  | blank => exact .blank

/-- The same for members. -/
theorem outlined_extractMembers {added : List Rule} (owner : Text) (members : List Expr)
    (s : NameSupply) (h : ∀ rule ∈ (extractMembers owner members s).added, Settled added rule) :
    members.length = (extractMembers owner members s).result.length ∧
      ∀ pair ∈ members.zip (extractMembers owner members s).result,
        Outlined added pair.1 pair.2 := by
  cases members with
  | nil => exact ⟨rfl, by simp⟩
  | cons e rest =>
      rw [extractMembers] at h ⊢
      have hFirst := outlined_extract owner e s fun rule hRule =>
        h rule (List.mem_append_left _ hRule)
      obtain ⟨hLength, hOthers⟩ := outlined_extractMembers owner rest (e.extract owner s).supply
        fun rule hRule => h rule (List.mem_append_right _ hRule)
      refine ⟨by simpa using hLength, ?_⟩
      intro pair hPair
      rw [List.zip_cons_cons] at hPair
      rcases List.mem_cons.1 hPair with rfl | hLater
      · exact hFirst
      · exact hOthers pair hLater

end

end Expr

/-- Once the rules that a step makes are settled, what it leaves is the outline of the body. -/
theorem Rule.outlinedBelow_hoisted {added : List Rule} (rule : Rule) (owner : Text)
    (s : NameSupply) (h : ∀ made ∈ (rule.hoisted owner s).added, Expr.Settled added made) :
    Expr.OutlinedBelow added rule.body (rule.hoisted owner s).result.body := by
  obtain ⟨name, body, isExtra, synthetic⟩ := rule
  cases body with
  | choice members =>
      obtain ⟨hLength, hMembers⟩ := Expr.outlined_extractMembers owner members s h
      exact .choice hLength hMembers
  | sequence members =>
      exact .other (fun _ => by simp) (Expr.outlined_extract owner (.sequence members) s h)
  | repetition kind content =>
      exact .other (fun _ => by simp) (Expr.outlined_extract owner (.repetition kind content) s h)
  | symbol name => exact .other (fun _ => by simp) (.symbol name)
  | terminal kind value => exact .other (fun _ => by simp) (.terminal kind value)
  | blank => exact .other (fun _ => by simp) .blank

end TreeTypes

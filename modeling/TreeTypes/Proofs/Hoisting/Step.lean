import Mathlib.Algebra.GroupWithZero.Nat
import Mathlib.Data.List.Basic
import TreeTypes.Hoisting
import TreeTypes.Proofs.Naming

/-!
# One step of hoisting

A step takes the maximal choices below the top out of a body. Everything that
it returns can be written down without running it. The new rules are the
maximal choices in pre-order, each with the next name that the owner draws;
the supply afterwards is the supply after as many draws; and what is left of
the body holds no choice below its top.

References are neither lost nor made up. Together, what is left and what was
taken out mention the names that the body mentioned, as often as it did, and
each drawn name once. This conservation law (`hoisted_symbols_perm`) is what
makes every new rule have exactly one referrer.

## Main results

* `Rule.hoisted_added`, `Rule.hoisted_supply` — the new rules and the supply.
* `Rule.hoisted_symbols_perm` — conservation of references.
* `Rule.name_mem_symbols_hoisted` — what is left refers to every new rule.
* `Rule.hoisted_hasNestedChoice`, `Rule.hoisted_valid` — the body that is left.
-/

namespace TreeTypes

namespace Expr

/-! ## Maximal choices and the number of choices -/

mutual

/-- The choices of an expression that stand in no other choice, in pre-order. -/
def maximalChoices : Expr → List Expr
  | symbol _ => []
  | terminal _ _ => []
  | blank => []
  | sequence members => maximalChoicesOfMembers members
  | choice members => [choice members]
  | repetition _ content => maximalChoices content

/-- The choices of members that stand in no other choice. -/
def maximalChoicesOfMembers : List Expr → List Expr
  | [] => []
  | e :: rest => maximalChoices e ++ maximalChoicesOfMembers rest

end

@[simp] theorem maximalChoicesOfMembers_eq (members : List Expr) :
    maximalChoicesOfMembers members = members.flatMap maximalChoices := by
  induction members with
  | nil => rfl
  | cons e rest ih => simp [maximalChoicesOfMembers, ih]

/-- The maximal choices strictly below the top. -/
def choicesBelow (e : Expr) : List Expr := e.children.flatMap maximalChoices

mutual

/-- The number of choices in an expression. -/
def choiceCount : Expr → Nat
  | symbol _ => 0
  | terminal _ _ => 0
  | blank => 0
  | sequence members => choiceCountOfMembers members
  | choice members => 1 + choiceCountOfMembers members
  | repetition _ content => choiceCount content

/-- The number of choices in members. -/
def choiceCountOfMembers : List Expr → Nat
  | [] => 0
  | e :: rest => choiceCount e + choiceCountOfMembers rest

end

@[simp] theorem choiceCountOfMembers_eq (members : List Expr) :
    choiceCountOfMembers members = (members.map choiceCount).sum := by
  induction members with
  | nil => rfl
  | cons e rest ih => simp [choiceCountOfMembers, ih]

/-- The number of choices strictly below the top. -/
def nestedChoiceCount (e : Expr) : Nat := (e.children.map choiceCount).sum

mutual

/-- A choice stands in a maximal one, or is one. -/
theorem choiceCount_eq (e : Expr) :
    e.choiceCount =
      e.maximalChoices.length + (e.maximalChoices.map nestedChoiceCount).sum := by
  cases e with
  | choice members =>
      simp [choiceCount, maximalChoices, nestedChoiceCount, children]
  | sequence members =>
      rw [choiceCount, maximalChoices]
      exact choiceCountOfMembers_decomposed members
  | repetition kind content =>
      rw [choiceCount, maximalChoices]
      exact choiceCount_eq content
  | symbol name => rfl
  | terminal kind value => rfl
  | blank => rfl

/-- The same for members. -/
theorem choiceCountOfMembers_decomposed (members : List Expr) :
    choiceCountOfMembers members = (maximalChoicesOfMembers members).length +
      ((maximalChoicesOfMembers members).map nestedChoiceCount).sum := by
  cases members with
  | nil => rfl
  | cons e rest =>
      have hFirst := choiceCount_eq e
      have hOthers := choiceCountOfMembers_decomposed rest
      rw [choiceCountOfMembers, maximalChoicesOfMembers, List.length_append, List.map_append,
        List.sum_append]
      omega

end

/-- The nested choices are the maximal ones below the top and those nested in them. -/
theorem nestedChoiceCount_eq (e : Expr) :
    e.nestedChoiceCount =
      e.choicesBelow.length + (e.choicesBelow.map nestedChoiceCount).sum := by
  have h := choiceCountOfMembers_decomposed e.children
  rw [choiceCountOfMembers_eq, maximalChoicesOfMembers_eq] at h
  exact h

end Expr

/-! ## What is taken out -/

/-- The rule that hoisting makes of a choice. -/
def Rule.made (name : Text) (choice : Expr) : Rule :=
  { name := name, body := choice, synthetic := true }

/-- The rules made of choices with names. -/
def Rule.allMade (names : List Text) (choices : List Expr) : List Rule :=
  List.zipWith Rule.made names choices

theorem Rule.map_name_allMade {names : List Text} {choices : List Expr}
    (h : names.length = choices.length) : (allMade names choices).map Rule.name = names := by
  rw [allMade, ← List.map_uncurry_zip_eq_zipWith, List.map_map]
  exact List.map_fst_zip (Nat.le_of_eq h)

theorem Rule.map_body_allMade {names : List Text} {choices : List Expr}
    (h : names.length = choices.length) : (allMade names choices).map Rule.body = choices := by
  rw [allMade, ← List.map_uncurry_zip_eq_zipWith, List.map_map]
  exact List.map_snd_zip (Nat.le_of_eq h.symm)

theorem Rule.mem_allMade {names : List Text} {choices : List Expr} {rule : Rule}
    (h : rule ∈ allMade names choices) :
    ∃ name ∈ names, ∃ choice ∈ choices, rule = made name choice := by
  rw [allMade, ← List.map_uncurry_zip_eq_zipWith] at h
  obtain ⟨pair, hPair, rfl⟩ := List.mem_map.1 h
  exact ⟨pair.1, (List.of_mem_zip hPair).1, pair.2, (List.of_mem_zip hPair).2, rfl⟩

namespace Expr

mutual

/-- The new rules are the maximal choices with the next names, and the supply moves past them. -/
theorem extract_spec (owner : Text) (e : Expr) (s : NameSupply) :
    (e.extract owner s).added =
        Rule.allMade (s.drawMany owner e.maximalChoices.length).1 e.maximalChoices ∧
      (e.extract owner s).supply = (s.drawMany owner e.maximalChoices.length).2 := by
  cases e with
  | choice members => exact ⟨rfl, rfl⟩
  | sequence members =>
      have h := extractMembers_spec owner members s
      rw [extract, maximalChoices]
      exact h
  | repetition kind content =>
      have h := extract_spec owner content s
      rw [extract, maximalChoices]
      exact h
  | symbol name => exact ⟨rfl, rfl⟩
  | terminal kind value => exact ⟨rfl, rfl⟩
  | blank => exact ⟨rfl, rfl⟩

/-- The same for members from left to right. -/
theorem extractMembers_spec (owner : Text) (members : List Expr) (s : NameSupply) :
    (extractMembers owner members s).added =
        Rule.allMade (s.drawMany owner (maximalChoicesOfMembers members).length).1
          (maximalChoicesOfMembers members) ∧
      (extractMembers owner members s).supply =
        (s.drawMany owner (maximalChoicesOfMembers members).length).2 := by
  cases members with
  | nil => exact ⟨rfl, rfl⟩
  | cons e rest =>
      obtain ⟨hAdded, hSupply⟩ := extract_spec owner e s
      obtain ⟨hAddedRest, hSupplyRest⟩ :=
        extractMembers_spec owner rest (e.extract owner s).supply
      rw [extractMembers, maximalChoicesOfMembers, List.length_append, NameSupply.drawMany_add]
      simp only
      rw [hAddedRest, hSupplyRest, hAdded, hSupply]
      refine ⟨?_, rfl⟩
      rw [Rule.allMade, Rule.allMade, Rule.allMade, List.zipWith_append]
      rw [NameSupply.length_drawMany]

end

mutual

/-- References are neither lost nor made up, but for one to every new rule. -/
theorem extract_symbols_perm (owner : Text) (e : Expr) (s : NameSupply) :
    ((e.extract owner s).result.symbols ++
        (e.extract owner s).added.flatMap fun rule => rule.body.symbols).Perm
      (e.symbols ++ (e.extract owner s).added.map Rule.name) := by
  cases e with
  | choice members =>
      show ([(s.draw owner).1] ++ ((choice members).symbols ++ [])).Perm
        ((choice members).symbols ++ [(s.draw owner).1])
      rw [List.append_nil]
      exact List.perm_append_comm
  | sequence members =>
      have h := extractMembers_symbols_perm owner members s
      rw [extract]
      exact h
  | repetition kind content =>
      have h := extract_symbols_perm owner content s
      rw [extract]
      exact h
  | symbol name => exact List.Perm.refl _
  | terminal kind value => exact List.Perm.refl _
  | blank => exact List.Perm.refl _

/-- The same for members. -/
theorem extractMembers_symbols_perm (owner : Text) (members : List Expr) (s : NameSupply) :
    (symbolsOfMembers (extractMembers owner members s).result ++
        (extractMembers owner members s).added.flatMap fun rule => rule.body.symbols).Perm
      (symbolsOfMembers members ++ (extractMembers owner members s).added.map Rule.name) := by
  cases members with
  | nil => exact List.Perm.refl _
  | cons e rest =>
      have hFirst := extract_symbols_perm owner e s
      have hOthers := extractMembers_symbols_perm owner rest (e.extract owner s).supply
      rw [List.perm_iff_count] at hFirst hOthers ⊢
      intro name
      have hFirst := hFirst name
      have hOthers := hOthers name
      simp only [extractMembers, symbolsOfMembers, List.flatMap_append, List.map_append,
        List.count_append] at hFirst hOthers ⊢
      omega

end

mutual

/-- What is left refers to every new rule. -/
theorem name_mem_symbols_extract (owner : Text) (e : Expr) (s : NameSupply) {made : Rule}
    (h : made ∈ (e.extract owner s).added) :
    made.name ∈ (e.extract owner s).result.symbols := by
  cases e with
  | choice members =>
      rw [List.mem_singleton.1 h]
      exact List.mem_singleton.2 rfl
  | sequence members => exact name_mem_symbols_extractMembers owner members s h
  | repetition kind content => exact name_mem_symbols_extract owner content s h
  | symbol name => exact absurd h List.not_mem_nil
  | terminal kind value => exact absurd h List.not_mem_nil
  | blank => exact absurd h List.not_mem_nil

/-- What is left of members refers to every new rule. -/
theorem name_mem_symbols_extractMembers (owner : Text) (members : List Expr) (s : NameSupply)
    {made : Rule} (h : made ∈ (extractMembers owner members s).added) :
    made.name ∈ symbolsOfMembers (extractMembers owner members s).result := by
  cases members with
  | nil => exact absurd h List.not_mem_nil
  | cons e rest =>
      rcases List.mem_append.1 h with hFirst | hLater
      · exact List.mem_append_left _ (name_mem_symbols_extract owner e s hFirst)
      · exact List.mem_append_right _ (name_mem_symbols_extractMembers owner rest _ hLater)

end

mutual

/-- What is left holds no choice. -/
theorem containsChoice_extract (owner : Text) (e : Expr) (s : NameSupply) :
    (e.extract owner s).result.containsChoice = false := by
  cases e with
  | choice members => rfl
  | sequence members =>
      have h := membersContainChoice_extractMembers owner members s
      rw [extract]
      exact h
  | repetition kind content =>
      have h := containsChoice_extract owner content s
      rw [extract]
      exact h
  | symbol name => rfl
  | terminal kind value => rfl
  | blank => rfl

/-- What is left of members holds no choice. -/
theorem membersContainChoice_extractMembers (owner : Text) (members : List Expr)
    (s : NameSupply) :
    membersContainChoice (extractMembers owner members s).result = false := by
  cases members with
  | nil => rfl
  | cons e rest =>
      have hFirst := containsChoice_extract owner e s
      have hOthers := membersContainChoice_extractMembers owner rest (e.extract owner s).supply
      rw [extractMembers, membersContainChoice, hFirst, hOthers]
      rfl

end

mutual

/-- What is left of a valid expression is valid. -/
theorem valid_extract (owner : Text) {e : Expr} (s : NameSupply) (h : e.Valid) :
    (e.extract owner s).result.Valid := by
  cases e with
  | choice members => exact s.draw_fst_ne_nil owner
  | sequence members =>
      obtain ⟨hNonempty, hMembers⟩ := h
      obtain ⟨hLength, hValid⟩ := validMembers_extractMembers owner s hMembers
      rw [extract]
      refine ⟨?_, hValid⟩
      intro hNil
      rw [hNil, List.length_nil, eq_comm, List.length_eq_zero_iff] at hLength
      exact hNonempty hLength
  | repetition kind content =>
      rw [extract]
      exact valid_extract owner (e := content) s h
  | symbol name => exact h
  | terminal kind value => exact h
  | blank => exact h

/-- What is left of valid members is valid, and as many. -/
theorem validMembers_extractMembers (owner : Text) {members : List Expr} (s : NameSupply)
    (h : ValidMembers members) :
    (extractMembers owner members s).result.length = members.length ∧
      ValidMembers (extractMembers owner members s).result := by
  cases members with
  | nil => exact ⟨rfl, h⟩
  | cons e rest =>
      have hFirst := valid_extract owner s h.1
      obtain ⟨hLength, hOthers⟩ :=
        validMembers_extractMembers owner (e.extract owner s).supply h.2
      rw [extractMembers]
      refine ⟨?_, hFirst, hOthers⟩
      rw [List.length_cons, List.length_cons, hLength]

end

/-- The maximal choices of a valid expression are valid. -/
theorem valid_of_mem_maximalChoices {e choice : Expr} (hValid : e.Valid)
    (h : choice ∈ e.maximalChoices) : choice.Valid := by
  induction e using structuralInduction with
  | choice members ih =>
      rw [List.mem_singleton.1 h]
      exact hValid
  | sequence members ih =>
      rw [maximalChoices, maximalChoicesOfMembers_eq, List.mem_flatMap] at h
      obtain ⟨e, he, hChoice⟩ := h
      exact ih e he (validMembers_iff.1 hValid.2 e he) hChoice
  | repetition kind content ih => exact ih hValid h
  | symbol name => exact absurd h List.not_mem_nil
  | terminal kind value => exact absurd h List.not_mem_nil
  | blank => exact absurd h List.not_mem_nil

theorem exists_eq_choice_of_mem_maximalChoices {e choice : Expr}
    (h : choice ∈ e.maximalChoices) : ∃ members, choice = .choice members := by
  induction e using structuralInduction with
  | choice members ih => exact ⟨members, List.mem_singleton.1 h⟩
  | sequence members ih =>
      rw [maximalChoices, maximalChoicesOfMembers_eq, List.mem_flatMap] at h
      obtain ⟨e, he, hChoice⟩ := h
      exact ih e he hChoice
  | repetition kind content ih => exact ih h
  | symbol name => exact absurd h List.not_mem_nil
  | terminal kind value => exact absurd h List.not_mem_nil
  | blank => exact absurd h List.not_mem_nil

theorem valid_of_mem_children {e child : Expr} (hValid : e.Valid) (h : child ∈ e.children) :
    child.Valid := by
  cases e with
  | choice members => exact validMembers_iff.1 hValid.2 child h
  | sequence members => exact validMembers_iff.1 hValid.2 child h
  | repetition kind content =>
      rw [List.mem_singleton.1 h]
      exact hValid
  | symbol name => exact absurd h List.not_mem_nil
  | terminal kind value => exact absurd h List.not_mem_nil
  | blank => exact absurd h List.not_mem_nil

theorem mem_symbols_of_mem_maximalChoices {e choice : Expr} {name : Text}
    (h : choice ∈ e.maximalChoices) (hName : name ∈ choice.symbols) : name ∈ e.symbols := by
  induction e using structuralInduction with
  | choice members ih =>
      rw [← List.mem_singleton.1 h]
      exact hName
  | sequence members ih =>
      rw [maximalChoices, maximalChoicesOfMembers_eq, List.mem_flatMap] at h
      obtain ⟨e, he, hChoice⟩ := h
      rw [symbols, symbolsOfMembers_eq, List.mem_flatMap]
      exact ⟨e, he, ih e he hChoice⟩
  | repetition kind content ih => exact ih h
  | symbol name => exact absurd h List.not_mem_nil
  | terminal kind value => exact absurd h List.not_mem_nil
  | blank => exact absurd h List.not_mem_nil

theorem mem_symbols_of_mem_members {e : Expr} {members : List Expr} (h : e ∈ members)
    {name : Text} (hName : name ∈ e.symbols) : name ∈ symbolsOfMembers members := by
  rw [symbolsOfMembers_eq]
  exact List.mem_flatMap.2 ⟨e, h, hName⟩

theorem mem_symbols_of_mem_children {e child : Expr} {name : Text} (h : child ∈ e.children)
    (hName : name ∈ child.symbols) : name ∈ e.symbols := by
  cases e with
  | choice members => exact mem_symbols_of_mem_members h hName
  | sequence members => exact mem_symbols_of_mem_members h hName
  | repetition kind content =>
      rw [← List.mem_singleton.1 h]
      exact hName
  | symbol name => exact absurd h List.not_mem_nil
  | terminal kind value => exact absurd h List.not_mem_nil
  | blank => exact absurd h List.not_mem_nil

/-! ## Below the top -/

/-- Below the top, a step treats the parts as it treats members. -/
theorem extractBelow_eq (owner : Text) (e : Expr) (s : NameSupply) :
    (e.extractBelow owner s).added = (extractMembers owner e.children s).added ∧
      (e.extractBelow owner s).supply = (extractMembers owner e.children s).supply ∧
      (e.extractBelow owner s).result.children =
        (extractMembers owner e.children s).result := by
  cases e with
  | choice members => exact ⟨rfl, rfl, rfl⟩
  | sequence members => exact ⟨rfl, rfl, rfl⟩
  | repetition kind content =>
      refine ⟨?_, rfl, rfl⟩
      show (content.extract owner s).added = (content.extract owner s).added ++ []
      rw [List.append_nil]
  | symbol name => exact ⟨rfl, rfl, rfl⟩
  | terminal kind value => exact ⟨rfl, rfl, rfl⟩
  | blank => exact ⟨rfl, rfl, rfl⟩

theorem extractBelow_symbols_perm (owner : Text) (e : Expr) (s : NameSupply) :
    ((e.extractBelow owner s).result.symbols ++
        (e.extractBelow owner s).added.flatMap fun rule => rule.body.symbols).Perm
      (e.symbols ++ (e.extractBelow owner s).added.map Rule.name) := by
  cases e with
  | choice members => exact extractMembers_symbols_perm owner members s
  | sequence members => exact extractMembers_symbols_perm owner members s
  | repetition kind content => exact extract_symbols_perm owner content s
  | symbol name => exact List.Perm.refl _
  | terminal kind value => exact List.Perm.refl _
  | blank => exact List.Perm.refl _

theorem valid_extractBelow (owner : Text) {e : Expr} (s : NameSupply) (h : e.Valid) :
    (e.extractBelow owner s).result.Valid := by
  cases e with
  | choice members => exact valid_extract owner (e := .sequence members) s h
  | sequence members => exact valid_extract owner (e := .sequence members) s h
  | repetition kind content => exact valid_extract owner (e := .repetition kind content) s h
  | symbol name => exact h
  | terminal kind value => exact h
  | blank => exact h

theorem membersContainChoice_children (e : Expr) :
    e.hasNestedChoice = membersContainChoice e.children := by
  rw [membersContainChoice_eq]
  rfl

theorem maximalChoices_eq_nil_iff {e : Expr} :
    e.maximalChoices = [] ↔ e.containsChoice = false := by
  induction e using structuralInduction with
  | symbol name => simp [maximalChoices, containsChoice]
  | terminal kind value => simp [maximalChoices, containsChoice]
  | blank => simp [maximalChoices, containsChoice]
  | sequence members ih =>
      rw [maximalChoices, maximalChoicesOfMembers_eq, containsChoice, membersContainChoice_eq,
        List.flatMap_eq_nil_iff, List.any_eq_false]
      simp only [Bool.not_eq_true]
      exact forall₂_congr ih
  | choice members ih => simp [maximalChoices, containsChoice]
  | repetition kind content ih => exact ih

theorem choicesBelow_eq_nil_iff {e : Expr} :
    e.choicesBelow = [] ↔ e.hasNestedChoice = false := by
  rw [choicesBelow, hasNestedChoice, List.flatMap_eq_nil_iff, List.any_eq_false]
  simp only [maximalChoices_eq_nil_iff, Bool.not_eq_true]

end Expr

/-! ## One step on a rule -/

namespace Rule

variable (rule : Rule) (owner : Text) (s : NameSupply)

/-- The rules that a step makes. -/
theorem hoisted_added :
    (rule.hoisted owner s).added =
      allMade (s.drawMany owner rule.body.choicesBelow.length).1 rule.body.choicesBelow := by
  have hMembers := (Expr.extractMembers_spec owner rule.body.children s).1
  rw [Expr.maximalChoicesOfMembers_eq] at hMembers
  show (rule.body.extractBelow owner s).added = _
  rw [(Expr.extractBelow_eq owner rule.body s).1, hMembers]
  rfl

/-- The supply after a step. -/
theorem hoisted_supply :
    (rule.hoisted owner s).supply = (s.drawMany owner rule.body.choicesBelow.length).2 := by
  have hMembers := (Expr.extractMembers_spec owner rule.body.children s).2
  rw [Expr.maximalChoicesOfMembers_eq] at hMembers
  show (rule.body.extractBelow owner s).supply = _
  rw [(Expr.extractBelow_eq owner rule.body s).2.1, hMembers]
  rfl

/-- The names of the rules that a step makes. -/
theorem hoisted_added_names :
    (rule.hoisted owner s).added.map Rule.name =
      (s.drawMany owner rule.body.choicesBelow.length).1 := by
  rw [hoisted_added, map_name_allMade (NameSupply.length_drawMany _ _ _)]

/-- The bodies of the rules that a step makes. -/
theorem hoisted_added_bodies :
    (rule.hoisted owner s).added.map Rule.body = rule.body.choicesBelow := by
  rw [hoisted_added, map_body_allMade (NameSupply.length_drawMany _ _ _)]

/-- Every rule that a step makes holds a choice from below the top. -/
theorem mem_hoisted_added {made : Rule} (h : made ∈ (rule.hoisted owner s).added) :
    made.isExtra = false ∧ made.synthetic = true ∧ made.body ∈ rule.body.choicesBelow := by
  rw [hoisted_added] at h
  obtain ⟨name, -, choice, hChoice, rfl⟩ := mem_allMade h
  exact ⟨rfl, rfl, hChoice⟩

/-- Conservation of references: what is left and what was taken out mention what the body
mentioned, and every new rule once. -/
theorem hoisted_symbols_perm :
    ((rule.hoisted owner s).result.body.symbols ++
        (rule.hoisted owner s).added.flatMap fun made => made.body.symbols).Perm
      (rule.body.symbols ++ (rule.hoisted owner s).added.map Rule.name) :=
  Expr.extractBelow_symbols_perm owner rule.body s

/-- What a step leaves refers to every rule that it makes. -/
theorem name_mem_symbols_hoisted {made : Rule} (h : made ∈ (rule.hoisted owner s).added) :
    made.name ∈ (rule.hoisted owner s).result.body.symbols := by
  obtain ⟨name, body, isExtra, synthetic⟩ := rule
  cases body with
  | choice members => exact Expr.name_mem_symbols_extractMembers owner members s h
  | sequence members => exact Expr.name_mem_symbols_extractMembers owner members s h
  | repetition kind content => exact Expr.name_mem_symbols_extract owner content s h
  | symbol name => exact absurd h List.not_mem_nil
  | terminal kind value => exact absurd h List.not_mem_nil
  | blank => exact absurd h List.not_mem_nil

/-- A step leaves no choice below the top. -/
theorem hoisted_hasNestedChoice : (rule.hoisted owner s).result.body.hasNestedChoice = false := by
  rw [Expr.membersContainChoice_children]
  show Expr.membersContainChoice (rule.body.extractBelow owner s).result.children = false
  rw [(Expr.extractBelow_eq owner rule.body s).2.2]
  exact Expr.membersContainChoice_extractMembers owner rule.body.children s

variable {rule}

/-- A step makes rules exactly if there is a nested choice. -/
theorem hoisted_added_eq_nil_iff {owner : Text} {s : NameSupply} :
    (rule.hoisted owner s).added = [] ↔ rule.body.hasNestedChoice = false := by
  rw [← Expr.choicesBelow_eq_nil_iff, ← rule.hoisted_added_bodies owner s, List.map_eq_nil_iff]

/-- A step keeps bodies valid. -/
theorem hoisted_valid (h : rule.body.Valid) :
    (rule.hoisted owner s).result.body.Valid ∧
      ∀ made ∈ (rule.hoisted owner s).added, made.body.Valid := by
  refine ⟨Expr.valid_extractBelow owner s h, ?_⟩
  intro made hMade
  obtain ⟨-, -, hChoice⟩ := rule.mem_hoisted_added owner s hMade
  obtain ⟨child, hChild, hMaximal⟩ := List.mem_flatMap.1 hChoice
  exact Expr.valid_of_mem_maximalChoices (Expr.valid_of_mem_children h hChild) hMaximal

end Rule

end TreeTypes

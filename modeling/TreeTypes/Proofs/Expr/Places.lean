import TreeTypes.Proofs.Hoisting.Step

/-!
# Where the choices of a body stand

The same choice can occur twice in a body, and hoisting makes a rule of each
occurrence. To say which rule is made of which occurrence, and in what order,
an occurrence is given by its **position**, the way that leads down to it from
the top: at each level, the number of the immediate part to go to.

The choices strictly below the top form a forest, in which the roots are the
maximal ones and below a choice stand the choices that are maximal in it. The
order in which hoisting deals with them is level by level and, on a level,
from left to right: `Expr.nestedPlaces`.

That this list is complete and has no repetitions is proved here. Both rest on
the positions: two places of one level part from each other at some point of
their ways, so nothing that stands below one of them stands below the other.

## Main definitions

* `Position`, `Place`, `Expr.part?`
* `Expr.placesBelow`: the maximal choices below the top, in pre-order.
* `Expr.nestedPlaces`: all choices below the top, level by level.

## Main results

* `Expr.mem_nestedPlaces_iff` — the places are those of the nested choices.
* `Expr.nodup_nestedPlaces` — each of them is listed once.
-/

namespace TreeTypes

/-! ## Positions -/

/-- The way from an expression down to a part of it: the numbers of the parts to go to. -/
abbrev Position := List Nat

namespace Position

/-- The two ways part, and the first one goes to the left. -/
inductive LeftOf : Position → Position → Prop
  | here {i j : Nat} (h : i < j) (p q : Position) : LeftOf (i :: p) (j :: q)
  | further (i : Nat) {p q : Position} (h : LeftOf p q) : LeftOf (i :: p) (i :: q)

variable {p q : Position}

/-- Ways that have parted do not meet again. -/
theorem LeftOf.append (h : LeftOf p q) (r s : Position) : LeftOf (p ++ r) (q ++ s) := by
  induction h with
  | here h p q => exact .here h (p ++ r) (q ++ s)
  | further i _ ih => exact .further i ih

theorem LeftOf.prepend (h : LeftOf p q) (r : Position) : LeftOf (r ++ p) (r ++ q) := by
  induction r with
  | nil => exact h
  | cons i r ih => exact .further i ih

/-- Of two ways that part, neither leads on from the other. -/
theorem LeftOf.ne_append (h : LeftOf p q) (r : Position) : p ≠ q ++ r ∧ q ≠ p ++ r := by
  induction h with
  | @here i j h p q =>
      constructor
      · intro hEq
        have hHead : i = j := (List.cons.inj hEq).1
        omega
      · intro hEq
        have hHead : j = i := (List.cons.inj hEq).1
        omega
  | further i _ ih =>
      exact ⟨fun hEq => ih.1 (List.cons.inj hEq).2, fun hEq => ih.2 (List.cons.inj hEq).2⟩

end Position

/-- A choice of an expression, and the position where it stands. -/
structure Place where
  position : Position
  choice : Expr

/-- The place seen from further out. -/
def Place.within (outer : Position) (place : Place) : Place :=
  { place with position := outer ++ place.position }

namespace Expr

/-- Induction over expressions by their immediate parts. -/
theorem children_induction {motive : Expr → Prop}
    (h : ∀ e, (∀ child ∈ e.children, motive child) → motive e) : ∀ e, motive e := by
  intro e
  induction e using structuralInduction with
  | symbol name => exact h _ (by simp [children])
  | terminal kind value => exact h _ (by simp [children])
  | blank => exact h _ (by simp [children])
  | sequence members ih => exact h _ ih
  | choice members ih => exact h _ ih
  | repetition kind content ih => exact h _ (by simpa [children] using ih)

theorem size_le_sizeMembers {e : Expr} {members : List Expr} (h : e ∈ members) :
    e.size ≤ sizeMembers members := by
  induction members with
  | nil => exact absurd h List.not_mem_nil
  | cons first rest ih =>
      rw [sizeMembers]
      rcases List.mem_cons.1 h with rfl | hLater
      · omega
      · have hRest := ih hLater
        omega

/-- A part is smaller than the whole. -/
theorem size_lt_of_mem_children {e child : Expr} (h : child ∈ e.children) :
    child.size < e.size := by
  cases e with
  | choice members =>
      have hSize : child.size ≤ sizeMembers members := size_le_sizeMembers h
      rw [size]
      omega
  | sequence members =>
      have hSize : child.size ≤ sizeMembers members := size_le_sizeMembers h
      rw [size]
      omega
  | repetition kind content =>
      rw [List.mem_singleton.1 h, size]
      omega
  | symbol name => exact absurd h List.not_mem_nil
  | terminal kind value => exact absurd h List.not_mem_nil
  | blank => exact absurd h List.not_mem_nil

/-- The part of an expression at a position. -/
def part? : Expr → Position → Option Expr
  | e, [] => some e
  | e, i :: rest =>
    match e.children[i]? with
    | some child => child.part? rest
    | none => none

theorem part?_cons {e : Expr} {i : Nat} {rest : Position} {part : Expr} :
    e.part? (i :: rest) = some part ↔
      ∃ child, e.children[i]? = some child ∧ child.part? rest = some part := by
  rw [part?]
  cases e.children[i]? with
  | none => simp
  | some child => simp

/-- The part of a part is a part. -/
theorem part?_append {e part inner : Expr} {p q : Position} (h : e.part? p = some part)
    (hInner : part.part? q = some inner) : e.part? (p ++ q) = some inner := by
  induction p generalizing e with
  | nil =>
      rw [part?, Option.some.injEq] at h
      rw [List.nil_append, h]
      exact hInner
  | cons i rest ih =>
      obtain ⟨child, hChild, hRest⟩ := part?_cons.1 h
      exact part?_cons.2 ⟨child, hChild, ih hRest⟩

/-! ## Parts of a sort -/

/-- A part of some sort is the expression itself or a part of an immediate part. -/
theorem exists_part?_iff {P : Expr → Prop} {e : Expr} :
    (∃ p part, e.part? p = some part ∧ P part) ↔
      P e ∨ ∃ child ∈ e.children, ∃ p part, child.part? p = some part ∧ P part := by
  constructor
  · rintro ⟨p, part, hPart, hSort⟩
    cases p with
    | nil =>
        rw [part?, Option.some.injEq] at hPart
        rw [← hPart] at hSort
        exact Or.inl hSort
    | cons i rest =>
        obtain ⟨child, hChild, hRest⟩ := part?_cons.1 hPart
        exact Or.inr ⟨child, List.mem_of_getElem? hChild, rest, part, hRest, hSort⟩
  · rintro (hSort | ⟨child, hChild, p, part, hPart, hSort⟩)
    · exact ⟨[], e, rfl, hSort⟩
    · obtain ⟨i, hNumber⟩ := List.mem_iff_getElem?.1 hChild
      exact ⟨i :: p, part, part?_cons.2 ⟨child, hNumber, hPart⟩, hSort⟩

/-- An expression refers to the names that stand in it as symbols. -/
theorem mem_symbols_iff {e : Expr} {name : Text} :
    name ∈ e.symbols ↔ ∃ p, e.part? p = some (symbol name) := by
  have hDown : ∀ e : Expr, name ∈ e.symbols ↔
      e = symbol name ∨ ∃ child ∈ e.children, name ∈ child.symbols := by
    intro e
    cases e <;> simp [symbols, children, eq_comm]
  have hParts : ∀ e : Expr, (∃ p, e.part? p = some (symbol name)) ↔
      e = symbol name ∨ ∃ child ∈ e.children, ∃ p, child.part? p = some (symbol name) := by
    intro e
    simpa using exists_part?_iff (P := fun part => part = symbol name) (e := e)
  induction e using children_induction with
  | h e ih =>
      rw [hDown, hParts]
      exact or_congr_right (exists_congr fun child => and_congr_right (ih child))

/-- An expression contains a choice if one stands in it. -/
theorem containsChoice_iff {e : Expr} :
    e.containsChoice = true ↔ ∃ p members, e.part? p = some (choice members) := by
  have hDown : ∀ e : Expr, e.containsChoice = true ↔
      (∃ members, e = choice members) ∨ ∃ child ∈ e.children, child.containsChoice = true := by
    intro e
    cases e <;> simp [containsChoice, children]
  have hParts : ∀ e : Expr, (∃ p members, e.part? p = some (choice members)) ↔
      (∃ members, e = choice members) ∨
        ∃ child ∈ e.children, ∃ p members, child.part? p = some (choice members) := by
    intro e
    have h := exists_part?_iff (P := fun part => ∃ members, part = choice members) (e := e)
    simpa using h
  induction e using children_induction with
  | h e ih =>
      rw [hDown, hParts]
      exact or_congr_right (exists_congr fun child => and_congr_right (ih child))

/-- A nested choice is one that stands below the top. -/
theorem hasNestedChoice_iff {e : Expr} :
    e.hasNestedChoice = true ↔ ∃ p members, p ≠ [] ∧ e.part? p = some (choice members) := by
  rw [hasNestedChoice, List.any_eq_true]
  constructor
  · rintro ⟨child, hChild, hChoice⟩
    obtain ⟨p, members, hPart⟩ := containsChoice_iff.1 hChoice
    obtain ⟨i, hNumber⟩ := List.mem_iff_getElem?.1 hChild
    exact ⟨i :: p, members, List.cons_ne_nil _ _, part?_cons.2 ⟨child, hNumber, hPart⟩⟩
  · rintro ⟨p, members, hBelow, hPart⟩
    obtain ⟨i, rest, rfl⟩ := List.exists_cons_of_ne_nil hBelow
    obtain ⟨child, hNumber, hRest⟩ := part?_cons.1 hPart
    exact ⟨child, List.mem_of_getElem? hNumber, containsChoice_iff.2 ⟨rest, members, hRest⟩⟩

/-! ## Maximal choices -/

mutual

/-- The places of the choices that stand in no other choice, in pre-order. -/
def maximalPlaces : Expr → List Place
  | symbol _ => []
  | terminal _ _ => []
  | blank => []
  | sequence members => maximalPlacesFrom 0 members
  | choice members => [⟨[], choice members⟩]
  | repetition _ content => (maximalPlaces content).map (Place.within [0])

/-- The same for members, the first of which has the number `i`. -/
def maximalPlacesFrom (i : Nat) : List Expr → List Place
  | [] => []
  | e :: rest => (maximalPlaces e).map (Place.within [i]) ++ maximalPlacesFrom (i + 1) rest

end

/-- The places of the maximal choices strictly below the top, in pre-order. -/
def placesBelow (e : Expr) : List Place := maximalPlacesFrom 0 e.children

theorem maximalPlaces_choice (members : List Expr) :
    maximalPlaces (choice members) = [⟨[], choice members⟩] := by
  rw [maximalPlaces]

/-- What is no choice has its maximal choices below the top. -/
theorem maximalPlaces_eq_placesBelow {e : Expr} (h : ∀ members, e ≠ choice members) :
    e.maximalPlaces = e.placesBelow := by
  cases e with
  | choice members => exact absurd rfl (h members)
  | sequence members => rw [maximalPlaces, placesBelow, children]
  | repetition kind content =>
      rw [maximalPlaces, placesBelow, children, maximalPlacesFrom, maximalPlacesFrom,
        List.append_nil]
  | symbol name => rfl
  | terminal kind value => rfl
  | blank => rfl

theorem mem_maximalPlacesFrom {members : List Expr} : ∀ {i : Nat} {place : Place},
    place ∈ maximalPlacesFrom i members ↔ ∃ (j : Nat) (e : Expr) (inner : Place),
      members[j]? = some e ∧ inner ∈ e.maximalPlaces ∧ place = inner.within [i + j] := by
  induction members with
  | nil =>
      intro i place
      simp [maximalPlacesFrom]
  | cons first rest ih =>
      intro i place
      rw [maximalPlacesFrom, List.mem_append, ih]
      constructor
      · rintro (hFirst | ⟨j, e, inner, hMember, hInner, hPlace⟩)
        · obtain ⟨inner, hInner, hPlace⟩ := List.mem_map.1 hFirst
          exact ⟨0, first, inner, rfl, hInner, hPlace.symm⟩
        · refine ⟨j + 1, e, inner, hMember, hInner, ?_⟩
          rw [hPlace, Nat.add_right_comm, Nat.add_assoc]
      · rintro ⟨j, e, inner, hMember, hInner, hPlace⟩
        cases j with
        | zero =>
            rw [List.getElem?_cons_zero, Option.some.injEq] at hMember
            subst hMember
            exact Or.inl (List.mem_map.2 ⟨inner, hInner, hPlace.symm⟩)
        | succ j =>
            refine Or.inr ⟨j, e, inner, hMember, hInner, ?_⟩
            rw [hPlace, Nat.add_right_comm, Nat.add_assoc]

/-- A maximal choice below the top is maximal in one of the parts. -/
theorem mem_placesBelow {e : Expr} {place : Place} :
    place ∈ e.placesBelow ↔ ∃ (i : Nat) (child : Expr) (inner : Place),
      e.children[i]? = some child ∧ inner ∈ child.maximalPlaces ∧ place = inner.within [i] := by
  rw [placesBelow, mem_maximalPlacesFrom]
  simp only [Nat.zero_add]

/-- At the place of a maximal choice stands that choice. -/
theorem part?_of_mem_maximalPlaces {e : Expr} {place : Place} (h : place ∈ e.maximalPlaces) :
    e.part? place.position = some place.choice ∧ ∃ members, place.choice = choice members := by
  induction e using children_induction generalizing place with
  | h e ih =>
      by_cases hChoice : ∃ members, e = choice members
      · obtain ⟨members, rfl⟩ := hChoice
        rw [maximalPlaces_choice, List.mem_singleton] at h
        rw [h]
        exact ⟨rfl, members, rfl⟩
      · rw [maximalPlaces_eq_placesBelow fun members hEq => hChoice ⟨members, hEq⟩] at h
        obtain ⟨i, child, inner, hChild, hInner, rfl⟩ := mem_placesBelow.1 h
        obtain ⟨hPart, hMembers⟩ := ih child (List.mem_of_getElem? hChild) hInner
        exact ⟨part?_cons.2 ⟨child, hChild, hPart⟩, hMembers⟩

/-- The same below the top. -/
theorem part?_of_mem_placesBelow {e : Expr} {place : Place} (h : place ∈ e.placesBelow) :
    place.position ≠ [] ∧ e.part? place.position = some place.choice ∧
      ∃ members, place.choice = choice members := by
  obtain ⟨i, child, inner, hChild, hInner, rfl⟩ := mem_placesBelow.1 h
  obtain ⟨hPart, hMembers⟩ := part?_of_mem_maximalPlaces hInner
  exact ⟨List.cons_ne_nil _ _, part?_cons.2 ⟨child, hChild, hPart⟩, hMembers⟩

/-- Every choice stands in a maximal one, or is one. -/
theorem exists_mem_maximalPlaces {e : Expr} {p : Position} {members : List Expr}
    (h : e.part? p = some (choice members)) :
    ∃ place ∈ e.maximalPlaces, ∃ q, p = place.position ++ q ∧
      place.choice.part? q = some (choice members) := by
  induction p generalizing e with
  | nil =>
      rw [part?, Option.some.injEq] at h
      subst h
      rw [maximalPlaces_choice]
      exact ⟨_, List.mem_singleton.2 rfl, [], rfl, rfl⟩
  | cons i rest ih =>
      by_cases hChoice : ∃ others, e = choice others
      · obtain ⟨others, rfl⟩ := hChoice
        rw [maximalPlaces_choice]
        exact ⟨_, List.mem_singleton.2 rfl, i :: rest, rfl, h⟩
      · rw [maximalPlaces_eq_placesBelow fun others hEq => hChoice ⟨others, hEq⟩]
        obtain ⟨child, hChild, hRest⟩ := part?_cons.1 h
        obtain ⟨inner, hInner, q, rfl, hPart⟩ := ih hRest
        exact ⟨inner.within [i], mem_placesBelow.2 ⟨i, child, inner, hChild, hInner, rfl⟩, q, rfl,
          hPart⟩

/-- Every nested choice stands in a maximal one below the top, or is one. -/
theorem exists_mem_placesBelow {e : Expr} {p : Position} {members : List Expr} (hp : p ≠ [])
    (h : e.part? p = some (choice members)) :
    ∃ place ∈ e.placesBelow, ∃ q, p = place.position ++ q ∧
      place.choice.part? q = some (choice members) := by
  obtain ⟨i, rest, rfl⟩ := List.exists_cons_of_ne_nil hp
  obtain ⟨child, hChild, hRest⟩ := part?_cons.1 h
  obtain ⟨inner, hInner, q, rfl, hPart⟩ := exists_mem_maximalPlaces hRest
  exact ⟨inner.within [i], mem_placesBelow.2 ⟨i, child, inner, hChild, hInner, rfl⟩, q, rfl, hPart⟩

/-- A maximal choice is no larger than the expression. -/
theorem size_le_of_mem_maximalPlaces {e : Expr} {place : Place} (h : place ∈ e.maximalPlaces) :
    place.choice.size ≤ e.size := by
  induction e using children_induction generalizing place with
  | h e ih =>
      by_cases hChoice : ∃ members, e = choice members
      · obtain ⟨members, rfl⟩ := hChoice
        rw [maximalPlaces_choice, List.mem_singleton] at h
        subst h
        exact Nat.le_refl _
      · rw [maximalPlaces_eq_placesBelow fun members hEq => hChoice ⟨members, hEq⟩] at h
        obtain ⟨i, child, inner, hChild, hInner, rfl⟩ := mem_placesBelow.1 h
        have hMem := List.mem_of_getElem? hChild
        have hInside : inner.choice.size ≤ child.size := ih child hMem hInner
        have hSmaller := size_lt_of_mem_children hMem
        show inner.choice.size ≤ e.size
        omega

/-- A maximal choice below the top is smaller than the expression. -/
theorem size_lt_of_mem_placesBelow {e : Expr} {place : Place} (h : place ∈ e.placesBelow) :
    place.choice.size < e.size := by
  obtain ⟨i, child, inner, hChild, hInner, rfl⟩ := mem_placesBelow.1 h
  have hInside : inner.choice.size ≤ child.size := size_le_of_mem_maximalPlaces hInner
  exact Nat.lt_of_le_of_lt hInside (size_lt_of_mem_children (List.mem_of_getElem? hChild))

mutual

/-- The choices at the maximal places are the maximal choices. -/
theorem map_choice_maximalPlaces (e : Expr) :
    e.maximalPlaces.map Place.choice = e.maximalChoices := by
  cases e with
  | choice members => rw [maximalPlaces, maximalChoices, List.map_singleton]
  | sequence members =>
      rw [maximalPlaces, maximalChoices]
      exact map_choice_maximalPlacesFrom 0 members
  | repetition kind content =>
      rw [maximalPlaces, maximalChoices, List.map_map]
      exact map_choice_maximalPlaces content
  | symbol name => rfl
  | terminal kind value => rfl
  | blank => rfl

/-- The same for members. -/
theorem map_choice_maximalPlacesFrom (i : Nat) (members : List Expr) :
    (maximalPlacesFrom i members).map Place.choice = maximalChoicesOfMembers members := by
  cases members with
  | nil => rfl
  | cons e rest =>
      rw [maximalPlacesFrom, maximalChoicesOfMembers, List.map_append, List.map_map,
        map_choice_maximalPlacesFrom (i + 1) rest]
      exact congrArg (· ++ _) (map_choice_maximalPlaces e)

end

theorem map_choice_placesBelow (e : Expr) : e.placesBelow.map Place.choice = e.choicesBelow := by
  rw [placesBelow, map_choice_maximalPlacesFrom, maximalChoicesOfMembers_eq]
  rfl

/-- The first place is to the left of the second. -/
def Parted (a b : Place) : Prop := Position.LeftOf a.position b.position

theorem pairwise_within {places : List Place} (h : places.Pairwise Parted) (outer : Position) :
    (places.map (Place.within outer)).Pairwise Parted :=
  List.pairwise_map.2 (h.imp fun hParted => hParted.prepend outer)

theorem pairwise_maximalPlacesFrom {members : List Expr}
    (h : ∀ e ∈ members, e.maximalPlaces.Pairwise Parted) (i : Nat) :
    (maximalPlacesFrom i members).Pairwise Parted := by
  induction members generalizing i with
  | nil =>
      rw [maximalPlacesFrom]
      exact List.Pairwise.nil
  | cons e rest ih =>
      rw [maximalPlacesFrom, List.pairwise_append]
      refine ⟨pairwise_within (h e List.mem_cons_self) [i],
        ih (fun other hOther => h other (List.mem_cons_of_mem _ hOther)) (i + 1), ?_⟩
      -- Places in the first member start with its number, all others with a larger one.
      intro a ha b hb
      obtain ⟨inner, -, rfl⟩ := List.mem_map.1 ha
      obtain ⟨j, other, later, -, -, rfl⟩ := mem_maximalPlacesFrom.1 hb
      exact .here (by omega) inner.position later.position

/-- Maximal choices are listed from left to right. -/
theorem pairwise_maximalPlaces (e : Expr) : e.maximalPlaces.Pairwise Parted := by
  induction e using children_induction with
  | h e ih =>
      by_cases hChoice : ∃ members, e = choice members
      · obtain ⟨members, rfl⟩ := hChoice
        rw [maximalPlaces_choice]
        exact List.pairwise_singleton _ _
      · rw [maximalPlaces_eq_placesBelow fun members hEq => hChoice ⟨members, hEq⟩]
        exact pairwise_maximalPlacesFrom ih 0

theorem pairwise_placesBelow (e : Expr) : e.placesBelow.Pairwise Parted :=
  pairwise_maximalPlacesFrom (fun child _ => pairwise_maximalPlaces child) 0

end Expr

/-! ## Level by level -/

/-- The places one level further down. -/
def Place.below (place : Place) : List Place :=
  place.choice.placesBelow.map (Place.within place.position)

/-- A number of levels from some places downwards, one level after another. -/
def Place.levels : (depth : Nat) → List Place → List Place
  | 0, _ => []
  | depth + 1, places => places ++ levels depth (places.flatMap below)

/-- The places of all choices strictly below the top in breadth-first order. There are fewer levels
than there are nodes. -/
def Expr.nestedPlaces (e : Expr) : List Place := Place.levels e.size e.placesBelow

namespace Place

open TreeTypes.Expr

theorem mem_below {place lower : Place} :
    lower ∈ place.below ↔
      ∃ inner ∈ place.choice.placesBelow, lower = inner.within place.position := by
  rw [below, List.mem_map]
  constructor
  · rintro ⟨inner, hInner, rfl⟩
    exact ⟨inner, hInner, rfl⟩
  · rintro ⟨inner, hInner, rfl⟩
    exact ⟨inner, hInner, rfl⟩

/-- The choices of the next level are smaller. -/
theorem size_le_of_mem_flatMap_below {places : List Place} {bound : Nat}
    (h : ∀ place ∈ places, place.choice.size ≤ bound + 1) :
    ∀ place ∈ places.flatMap below, place.choice.size ≤ bound := by
  intro lower hLower
  obtain ⟨place, hPlace, hBelow⟩ := List.mem_flatMap.1 hLower
  obtain ⟨inner, hInner, rfl⟩ := mem_below.1 hBelow
  have hSmaller := size_lt_of_mem_placesBelow hInner
  have hBound := h place hPlace
  show inner.choice.size ≤ bound
  omega

/-- An expression has at least one node. -/
theorem eq_nil_of_size_le_zero {places : List Place}
    (h : ∀ place ∈ places, place.choice.size ≤ 0) : places = [] := by
  rw [List.eq_nil_iff_forall_not_mem]
  intro place hPlace
  have hSize := h place hPlace
  have hPos := place.choice.size_pos
  omega

/-- Below so many levels nothing is left. -/
theorem levels_succ {depth : Nat} {places : List Place}
    (h : ∀ place ∈ places, place.choice.size ≤ depth) :
    levels (depth + 1) places = levels depth places := by
  induction depth generalizing places with
  | zero =>
      rw [eq_nil_of_size_le_zero h]
      rfl
  | succ depth ih =>
      rw [levels, ih (size_le_of_mem_flatMap_below h)]
      rfl

/-- What holds of some places, and is passed on downwards, holds on all levels. -/
theorem forall_mem_levels {P : Place → Prop}
    (hBelow : ∀ place, P place → ∀ lower ∈ place.below, P lower) {depth : Nat}
    {places : List Place} (h : ∀ place ∈ places, P place) :
    ∀ place ∈ levels depth places, P place := by
  induction depth generalizing places with
  | zero =>
      intro place hPlace
      exact absurd hPlace List.not_mem_nil
  | succ depth ih =>
      intro place hPlace
      rcases List.mem_append.1 hPlace with hHere | hLower
      · exact h place hHere
      · refine ih (fun lower hLower => ?_) place hLower
        obtain ⟨upper, hUpper, hBelowUpper⟩ := List.mem_flatMap.1 hLower
        exact hBelow upper (h upper hUpper) lower hBelowUpper

/-- Every choice in a choice stands on one of the levels. -/
theorem mem_levels {depth : Nat} {places : List Place} {place : Place} {q : Position}
    {members : List Expr} (hPlace : place ∈ places) (hSize : place.choice.size ≤ depth)
    (h : place.choice.part? q = some (.choice members)) :
    ⟨place.position ++ q, .choice members⟩ ∈ levels depth places := by
  induction depth generalizing places place q with
  | zero =>
      have hPos := place.choice.size_pos
      omega
  | succ depth ih =>
      rw [levels, List.mem_append]
      by_cases hq : q = []
      · rw [hq, part?, Option.some.injEq] at h
        rw [hq, List.append_nil, ← h]
        exact Or.inl hPlace
      · obtain ⟨inner, hInner, r, rfl, hPart⟩ := exists_mem_placesBelow hq h
        have hSmaller := size_lt_of_mem_placesBelow hInner
        have hLower : inner.within place.position ∈ places.flatMap below :=
          List.mem_flatMap.2 ⟨place, hPlace, mem_below.2 ⟨inner, hInner, rfl⟩⟩
        have hSizeInner : (inner.within place.position).choice.size ≤ depth := by
          show inner.choice.size ≤ depth
          omega
        rw [← List.append_assoc]
        exact Or.inr (ih hLower hSizeInner hPart)

/-- The places of the next level are listed from left to right. -/
theorem pairwise_flatMap_below {places : List Place} (h : places.Pairwise Parted) :
    (places.flatMap below).Pairwise Parted := by
  rw [List.pairwise_flatMap]
  refine ⟨fun place _ => pairwise_within (pairwise_placesBelow place.choice) place.position, ?_⟩
  refine h.imp ?_
  intro a b hParted x hx y hy
  obtain ⟨inner, -, rfl⟩ := mem_below.1 hx
  obtain ⟨inner', -, rfl⟩ := mem_below.1 hy
  exact hParted.append inner.position inner'.position

/-- What is below a place has a longer way. -/
theorem exists_append_of_mem_below {places : List Place} {depth : Nat} {lower : Place}
    (h : lower ∈ levels depth (places.flatMap below)) :
    ∃ place ∈ places, ∃ q, q ≠ [] ∧ lower.position = place.position ++ q := by
  refine forall_mem_levels (P := fun lower => ∃ place ∈ places, ∃ q, q ≠ [] ∧
    lower.position = place.position ++ q) ?_ ?_ lower h
  · rintro upper ⟨place, hPlace, q, hq, hUpper⟩ lower hLower
    obtain ⟨inner, -, rfl⟩ := mem_below.1 hLower
    refine ⟨place, hPlace, q ++ inner.position, by simp [hq], ?_⟩
    show upper.position ++ inner.position = _
    rw [hUpper, List.append_assoc]
  · intro lower hLower
    obtain ⟨place, hPlace, hBelow⟩ := List.mem_flatMap.1 hLower
    obtain ⟨inner, hInner, rfl⟩ := mem_below.1 hBelow
    exact ⟨place, hPlace, inner.position, (part?_of_mem_placesBelow hInner).1, rfl⟩

/-- No place stands below another one of its level. -/
theorem ne_append_of_mem {places : List Place} (h : places.Pairwise Parted) {a b : Place}
    (ha : a ∈ places) (hb : b ∈ places) {q : Position} (hq : q ≠ []) :
    a.position ≠ b.position ++ q := by
  have hLeft : places.Pairwise fun x y => x.position ≠ y.position ++ q :=
    h.imp fun hParted => (hParted.ne_append q).1
  have hRight : places.Pairwise fun x y => y.position ≠ x.position ++ q :=
    h.imp fun hParted => (hParted.ne_append q).2
  have hOwn : ∀ x ∈ places, x.position ≠ x.position ++ q := fun x _ hSame =>
    hq (List.append_right_eq_self.1 hSame.symm)
  exact List.Pairwise.forall_of_forall_of_flip hOwn hLeft hRight ha hb

/-- Places that are listed from left to right have different positions, and so do all places below
them. -/
theorem nodup_levels {depth : Nat} {places : List Place} (h : places.Pairwise Parted) :
    ((levels depth places).map Place.position).Nodup := by
  induction depth generalizing places with
  | zero => exact List.nodup_nil
  | succ depth ih =>
      rw [levels, List.map_append, List.nodup_append']
      refine ⟨?_, ih (pairwise_flatMap_below h), ?_⟩
      · refine List.pairwise_map.2 (h.imp fun hParted hEq => (hParted.ne_append []).1 ?_)
        rw [List.append_nil]
        exact hEq
      · intro position hHere hLower
        obtain ⟨place, hPlace, rfl⟩ := List.mem_map.1 hHere
        obtain ⟨lower, hLower, hSame⟩ := List.mem_map.1 hLower
        obtain ⟨upper, hUpper, q, hq, hLonger⟩ := exists_append_of_mem_below hLower
        exact ne_append_of_mem h hPlace hUpper hq (hSame.symm.trans hLonger)

end Place

namespace Expr

/-- The nested places are the positions below the top where a choice stands. -/
theorem mem_nestedPlaces_iff {e : Expr} {place : Place} :
    place ∈ e.nestedPlaces ↔ place.position ≠ [] ∧ e.part? place.position = some place.choice ∧
      ∃ members, place.choice = choice members := by
  constructor
  · refine Place.forall_mem_levels (P := fun place => place.position ≠ [] ∧
      e.part? place.position = some place.choice ∧ ∃ members, place.choice = choice members)
      ?_ (fun _ h => part?_of_mem_placesBelow h) place
    rintro upper ⟨hNot, hPart, -⟩ lower hLower
    obtain ⟨inner, hInner, rfl⟩ := Place.mem_below.1 hLower
    obtain ⟨-, hInnerPart, hMembers⟩ := part?_of_mem_placesBelow hInner
    exact ⟨List.append_ne_nil_of_left_ne_nil hNot _, part?_append hPart hInnerPart, hMembers⟩
  · obtain ⟨position, expr⟩ := place
    rintro ⟨hNot, hPart, members, rfl⟩
    obtain ⟨upper, hUpper, q, rfl, hInner⟩ := exists_mem_placesBelow hNot hPart
    exact Place.mem_levels hUpper (Nat.le_of_lt (size_lt_of_mem_placesBelow hUpper)) hInner

/-- Every nested choice is listed once. -/
theorem nodup_nestedPlaces (e : Expr) : (e.nestedPlaces.map Place.position).Nodup :=
  Place.nodup_levels (pairwise_placesBelow e)

/-- First the maximal choices below the top, then those below them. -/
theorem nestedPlaces_eq (e : Expr) :
    e.nestedPlaces = e.placesBelow ++ Place.levels e.size (e.placesBelow.flatMap Place.below) := by
  rw [nestedPlaces, ← Place.levels_succ fun place h => Nat.le_of_lt (size_lt_of_mem_placesBelow h)]
  rfl

end Expr

end TreeTypes

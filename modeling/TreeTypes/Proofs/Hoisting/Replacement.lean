import TreeTypes.Proofs.Expr.Places
import TreeTypes.Proofs.Hoisting.Success

/-!
# What a step replaces, and by what

A step changes a body at the outermost choices below its top and nowhere else.
To say so without running it, the new body is written as the old one with other
parts at given positions. The positions are those of the choices that stand in
no other choice below the top; listed from left to right there is one such list
only, and the step goes through it in this order, since it takes the names for
the members of a sequence one after another.

Nothing is assumed about the supply that the names come from. It may be in any
state and is shared with other rules: the step takes numbers from the owner's
counter on, in increasing order, and leaves the counters of other owners alone.
Of the names nothing matters but whether they can be referred to, which is the
same for all of them.

## Main definitions

* `Expr.replaceAt`, `Expr.replaceAll`: an expression with other parts.
* `Expr.IsOutermost`: the places of the outermost choices below the top.
* `Rule.IsStep`: what a step leaves, and what it does to the supply.

## Main results

* `Expr.mem_placesBelow_iff` — the list of outermost places is complete.
* `Expr.extractBelow_eq_replaceAll` — the new body.
* `Rule.hoist_exact` — all of a step.
-/

namespace TreeTypes

namespace Expr

/-! ## Outermost choices -/

/-- A choice strictly below the top of an expression that stands in no other such choice. -/
structure IsOutermost (e : Expr) (place : Place) : Prop where
  below : place.position ≠ []
  stands : e.part? place.position = some place.choice
  isChoice : ∃ members, place.choice = choice members
  notInside : ∀ {p q : Position} {members : List Expr}, p ≠ [] → q ≠ [] →
    place.position = p ++ q → e.part? p ≠ some (choice members)

/-- The outermost places are all listed, and no others. -/
theorem mem_placesBelow_iff {e : Expr} {place : Place} :
    place ∈ e.placesBelow ↔ e.IsOutermost place := by
  constructor
  · intro h
    obtain ⟨hBelow, hPart, hChoice⟩ := part?_of_mem_placesBelow h
    refine ⟨hBelow, hPart, hChoice, ?_⟩
    intro p q members hp hq hPosition hOuter
    -- A choice further out is listed or stands in one that is, which leads on to this place.
    obtain ⟨outer, hListed, r, rfl, -⟩ := exists_mem_placesBelow hp hOuter
    apply Place.ne_append_of_mem (pairwise_placesBelow e) h hListed (q := r ++ q)
    · simp [hq]
    · rw [hPosition, List.append_assoc]
  · intro h
    obtain ⟨position, _⟩ := place
    obtain ⟨hBelow, hPart, ⟨members, rfl⟩, hOutermost⟩ := h
    obtain ⟨outer, hListed, r, hPosition, hInner⟩ := exists_mem_placesBelow hBelow hPart
    obtain ⟨hOuterBelow, hOuterPart, others, hOthers⟩ := part?_of_mem_placesBelow hListed
    by_cases hr : r = []
    · subst hr
      rw [List.append_nil] at hPosition
      rw [part?, Option.some.injEq] at hInner
      have hSame : outer = ⟨position, choice members⟩ := by
        rw [← hInner]
        show outer = ⟨position, outer.choice⟩
        rw [show position = outer.position from hPosition]
      rw [← hSame]
      exact hListed
    · rw [hOthers] at hOuterPart
      exact absurd hOuterPart (hOutermost hOuterBelow hr hPosition)

/-! ## Other parts at some positions -/

/-- The expression with another part at a position; without a part there, the expression. -/
def replaceAt : Expr → Position → Expr → Expr
  | _, [], new => new
  | sequence members, i :: rest, new => sequence (members.modify i (·.replaceAt rest new))
  | choice members, i :: rest, new => choice (members.modify i (·.replaceAt rest new))
  | repetition kind content, 0 :: rest, new => repetition kind (content.replaceAt rest new)
  | leaf, _ :: _, _ => leaf

/-- The expression with other parts at some positions, put there one after another. -/
def replaceAll (e : Expr) (parts : List (Position × Expr)) : Expr :=
  parts.foldl (fun e part => e.replaceAt part.1 part.2) e

theorem replaceAll_cons (e : Expr) (part : Position × Expr) (parts : List (Position × Expr)) :
    e.replaceAll (part :: parts) = (e.replaceAt part.1 part.2).replaceAll parts := rfl

theorem replaceAll_append (e : Expr) (first others : List (Position × Expr)) :
    e.replaceAll (first ++ others) = (e.replaceAll first).replaceAll others :=
  List.foldl_append

/-- References by some names, in the places of choices. -/
def references (places : List Place) (names : List Text) : List (Position × Expr) :=
  List.zipWith (fun place name => (place.position, symbol name)) places names

theorem references_append {first others : List Place} {names later : List Text}
    (h : first.length = names.length) :
    references (first ++ others) (names ++ later) =
      references first names ++ references others later :=
  List.zipWith_append h

/-- The part seen from further out, one step. -/
def further (i : Nat) (part : Position × Expr) : Position × Expr := (i :: part.1, part.2)

theorem references_within (i : Nat) (places : List Place) (names : List Text) :
    references (places.map (Place.within [i])) names =
      (references places names).map (further i) := by
  rw [references, references, List.zipWith_map_left, List.map_zipWith]
  rfl

/-- What is put below one of the parts is put into this part. -/
theorem replaceAll_further {build : List Expr → Expr}
    (hBuild : ∀ members i rest new, (build members).replaceAt (i :: rest) new =
      build (members.modify i (·.replaceAt rest new)))
    (i : Nat) (parts : List (Position × Expr)) : ∀ members : List Expr,
    (build members).replaceAll (parts.map (further i)) =
      build (members.modify i (·.replaceAll parts)) := by
  induction parts with
  | nil =>
      intro members
      have hSame : members.modify i (·.replaceAll []) = members := List.modify_id i members
      rw [hSame]
      rfl
  | cons part parts ih =>
      intro members
      rw [List.map_cons, replaceAll_cons]
      show ((build members).replaceAt (i :: part.1) part.2).replaceAll _ = _
      rw [hBuild, ih, List.modify_modify_eq]
      rfl

theorem replaceAll_further_repetition (kind : RepetitionKind) (parts : List (Position × Expr)) :
    ∀ content : Expr, (repetition kind content).replaceAll (parts.map (further 0)) =
      repetition kind (content.replaceAll parts) := by
  induction parts with
  | nil =>
      intro content
      rfl
  | cons part parts ih =>
      intro content
      rw [List.map_cons, replaceAll_cons, replaceAll_cons]
      exact ih (content.replaceAt part.1 part.2)

/-! ## The body that a step leaves -/

mutual

/-- What is left of an expression has references in its maximal places, by the names that the owner
draws. -/
theorem extract_eq_replaceAll (owner : Text) (e : Expr) (s : NameSupply) :
    (e.extract owner s).result = e.replaceAll
      (references e.maximalPlaces (s.drawMany owner e.maximalPlaces.length).1) := by
  cases e with
  | choice members => rfl
  | sequence members =>
      rw [extract, maximalPlaces]
      exact extractMembers_eq_replaceAll (fun _ _ _ _ => rfl) owner [] members s
  | repetition kind content =>
      rw [extract, maximalPlaces, List.length_map, references_within,
        replaceAll_further_repetition]
      exact congrArg (repetition kind) (extract_eq_replaceAll owner content s)
  | symbol name => rfl
  | terminal kind value => rfl
  | blank => rfl

/-- The same for members, of which some have had their turn. -/
theorem extractMembers_eq_replaceAll {build : List Expr → Expr}
    (hBuild : ∀ members i rest new, (build members).replaceAt (i :: rest) new =
      build (members.modify i (·.replaceAt rest new)))
    (owner : Text) (done members : List Expr) (s : NameSupply) :
    build (done ++ (extractMembers owner members s).result) =
      (build (done ++ members)).replaceAll (references (maximalPlacesFrom done.length members)
        (s.drawMany owner (maximalPlacesFrom done.length members).length).1) := by
  cases members with
  | nil => rfl
  | cons e rest =>
      have hSupply : (e.extract owner s).supply = (s.drawMany owner e.maximalPlaces.length).2 := by
        rw [(extract_spec owner e s).2, ← map_choice_maximalPlaces, List.length_map]
      have hTurn : (done ++ e :: rest).modify done.length (·.replaceAll (references e.maximalPlaces
          (s.drawMany owner e.maximalPlaces.length).1)) =
            done ++ [(e.extract owner s).result] ++ rest := by
        have hBound : done.length < (done ++ e :: rest).length := by
          simp
        rw [List.modify_eq_take_cons_drop hBound, extract_eq_replaceAll]
        simp
      have hRest := extractMembers_eq_replaceAll hBuild owner
        (done ++ [(e.extract owner s).result]) rest (e.extract owner s).supply
      rw [List.length_append, List.length_singleton, hSupply] at hRest
      rw [extractMembers, maximalPlacesFrom, List.length_append, List.length_map,
        NameSupply.drawMany_add, references_append (by simp), references_within, replaceAll_append,
        replaceAll_further hBuild, hTurn]
      simp only
      rw [← hRest, hSupply, List.append_assoc]
      rfl

end

/-- What is left of a body is the body with references in the places of its outermost choices, by
the names that the owner draws. -/
theorem extractBelow_eq_replaceAll (owner : Text) (e : Expr) (s : NameSupply) :
    (e.extractBelow owner s).result = e.replaceAll
      (references e.placesBelow (s.drawMany owner e.placesBelow.length).1) := by
  cases e with
  | choice members => exact extractMembers_eq_replaceAll (fun _ _ _ _ => rfl) owner [] members s
  | sequence members => exact extractMembers_eq_replaceAll (fun _ _ _ _ => rfl) owner [] members s
  | repetition kind content =>
      rw [← maximalPlaces_eq_placesBelow fun _ => by simp]
      exact extract_eq_replaceAll owner (repetition kind content) s
  | symbol name => rfl
  | terminal kind value => rfl
  | blank => rfl

end Expr

/-! ## All of a step -/

namespace Rule

/-- A step takes out the outermost choices of a rule, from left to right, and gives them numbers of
the owner. -/
structure IsStep (rule : Rule) (owner : Text) (s : NameSupply) (places : List Place)
    (numbers : List Nat) (step : Extracted Rule) : Prop where
  mem_places : ∀ place, place ∈ places ↔ rule.body.IsOutermost place
  leftToRight : places.Pairwise fun a b => a.position.LeftOf b.position
  length_numbers : numbers.length = places.length
  ascending : numbers.Pairwise (· < ·)
  /-- The names have the owner's numbers from its counter on, and were not in use. -/
  numbers_free : ∀ k ∈ numbers, s.counters.count owner ≤ k ∧ numberedName owner k ∉ s.taken
  nodup_names : (numbers.map (numberedName owner)).Nodup
  /-- Of every choice, as it is, a rule is made. -/
  added : step.added = List.zipWith (fun place k =>
    { name := numberedName owner k, body := place.choice, isExtra := false, synthetic := true })
    places numbers
  /-- In the place of every choice there is a reference; nothing else changes. -/
  result : step.result = { rule with body := rule.body.replaceAll (List.zipWith (fun place k =>
    (place.position, .symbol (numberedName owner k))) places numbers) }
  mem_taken : ∀ name, name ∈ step.supply.taken ↔
    name ∈ s.taken ∨ ∃ k ∈ numbers, name = numberedName owner k
  /-- The owner's counter stands behind the numbers, and moved past no other free ones. -/
  counter : ∀ k ∈ numbers, k < step.supply.counters.count owner
  passed : ∀ k, s.counters.count owner ≤ k → k < step.supply.counters.count owner →
    numberedName owner k ∈ step.supply.taken
  others : ∀ other, other ≠ owner →
    step.supply.counters.count other = s.counters.count other

/-- What a step makes of a rule is determined by the outermost nested choices, whatever the counters
stand at and whatever names are in use. -/
theorem exists_isStep_hoisted (rule : Rule) (owner : Text) (s : NameSupply) :
    ∃ places numbers, IsStep rule owner s places numbers (rule.hoisted owner s) := by
  obtain ⟨numbers, hNames, hAscending, -, hBounds, hPassed⟩ :=
    NameSupply.exists_numbers_drawMany owner rule.body.placesBelow.length s
  have hLength : numbers.length = rule.body.placesBelow.length := by
    have hDrawn := NameSupply.length_drawMany owner rule.body.placesBelow.length s
    rw [hNames, List.length_map] at hDrawn
    exact hDrawn
  have hCount : rule.body.choicesBelow.length = rule.body.placesBelow.length := by
    rw [← Expr.map_choice_placesBelow, List.length_map]
  have hSupply := rule.hoisted_supply owner s
  rw [hCount] at hSupply
  refine ⟨rule.body.placesBelow, numbers, ?_⟩
  refine
    { mem_places := fun _ => Expr.mem_placesBelow_iff
      leftToRight := Expr.pairwise_placesBelow rule.body
      length_numbers := hLength
      ascending := hAscending
      numbers_free := ?_
      nodup_names := ?_
      added := ?_
      result := ?_
      mem_taken := ?_
      counter := ?_
      passed := ?_
      others := ?_ }
  · intro k hk
    refine ⟨(hBounds k hk).1, ?_⟩
    apply NameSupply.drawMany_notMem owner rule.body.placesBelow.length s
    rw [hNames]
    exact List.mem_map_of_mem hk
  · rw [← hNames]
    exact NameSupply.drawMany_nodup owner _ s
  · rw [rule.hoisted_added owner s, hCount, hNames, ← Expr.map_choice_placesBelow, allMade,
      List.zipWith_map_left, List.zipWith_map_right, List.zipWith_comm]
    rfl
  · show ({ rule with body := (rule.body.extractBelow owner s).result } : Rule) = _
    rw [Expr.extractBelow_eq_replaceAll, hNames, Expr.references, List.zipWith_map_right]
  · intro name
    rw [hSupply, NameSupply.mem_drawMany_taken, hNames, List.mem_map, or_comm]
    simp only [eq_comm]
  · intro k hk
    rw [hSupply]
    exact (hBounds k hk).2
  · rw [hSupply]
    exact hPassed
  · intro other hOther
    rw [hSupply]
    exact NameSupply.drawMany_count_of_ne hOther _ s

/-- A step of hoisting takes the outermost nested choices out and does nothing else, whatever the
counters stand at and whatever names are in use; it fails, without a diagnostic, exactly if there is
such a choice and the owner's name holds a surrogate. -/
theorem hoist_exact (rule : Rule) (owner : Text) (s : NameSupply) :
    (rule.Hoistable owner → ∃ step, (rule.hoist owner s).outcome = .ok step ∧
      ∃ places numbers, IsStep rule owner s places numbers step) ∧
    (¬ rule.Hoistable owner → (rule.hoist owner s).outcome = .error .referenceNotUnicode) :=
  ⟨fun h => ⟨rule.hoisted owner s, outcome_hoist h s, rule.exists_isStep_hoisted owner s⟩,
    fun h => outcome_hoist_of_not h s⟩

/-- A sequence of a choice with another one in it and of a choice that is repeated. -/
def crowded : Rule where
  name := "r"
  body := .sequence [.choice [.blank, .choice [.blank, .symbol "r"]],
    .repetition .zeroOrMore (.choice [.blank])]

/-- The owner's counter stands at 1, and the name with the number 2 is in use. -/
theorem hoist_exact_crowded :
    ∃ step, (crowded.hoist "r" ⟨⟨[("r", 1)]⟩, ["r", "r_2"]⟩).outcome = .ok step ∧
      step.result.body =
        .sequence [.symbol "r_1", .repetition .zeroOrMore (.symbol "r_3")] ∧
      ∃ places numbers, IsStep crowded "r" ⟨⟨[("r", 1)]⟩, ["r", "r_2"]⟩ places numbers step := by
  obtain ⟨step, hStep, hExact⟩ :=
    (hoist_exact crowded "r" ⟨⟨[("r", 1)]⟩, ["r", "r_2"]⟩).1 (by decide)
  have hOutcome : (crowded.hoist "r" ⟨⟨[("r", 1)]⟩, ["r", "r_2"]⟩).outcome.map (·.result.body) =
      .ok (.sequence [.symbol "r_1", .repetition .zeroOrMore (.symbol "r_3")]) := rfl
  rw [hStep] at hOutcome
  exact ⟨step, hStep, Except.ok.inj hOutcome, hExact⟩

/-- There is a rule for which a step returns nothing. -/
theorem exists_hoist_without_step :
    ∃ (rule : Rule) (owner : Text) (s : NameSupply),
      ∀ step, (rule.hoist owner s).outcome ≠ .ok step := by
  refine ⟨misnamed, misnamed.name, ⟨{}, [misnamed.name]⟩, fun step => ?_⟩
  rw [outcome_hoist_of_not (by decide)]
  simp

end Rule

end TreeTypes

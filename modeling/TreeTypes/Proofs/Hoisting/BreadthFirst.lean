import TreeTypes.Proofs.Expr.Places
import TreeTypes.Proofs.Hoisting.Success

/-!
# Which choice becomes which rule

The rules made of a body can be written down without a queue, from the body
and a naming of its places. The rule made of the choice at a place bears the
place's name; its body is the choice with names in the place of its own
maximal choices, and these are again the names of their places.

The names are given out when a choice is met, and the rules come out when they
leave the queue. That the two orders are the same is the point of this module.
A queue that holds a whole level puts the next level behind it, in the order
in which the names for it are drawn (`drained_level`); so level by level both
orders are that of `Expr.nestedPlaces` (`drained_waiting`).

Which numbers the names get depends on the names in use only. Rules are
therefore named and made as though each were alone with the set of declared
names.

## Main results

* `Rule.hoisted_eq` — a step, in terms of places.
* `Hoisting.drained_waiting` — the queue works in breadth-first order.
* `Grammar.rules_hoist` — the rules of the hoisted grammar, one by one.
-/

namespace TreeTypes

namespace Expr

/-! ## Names in the place of choices -/

mutual

/-- The expression with a name in the place of every maximal choice; which name it is depends on
the position. -/
def abridged (name : Position → Text) : Expr → Expr
  | symbol target => symbol target
  | terminal kind value => terminal kind value
  | blank => blank
  | sequence members => sequence (abridgedFrom name 0 members)
  | choice _ => symbol (name [])
  | repetition kind content => repetition kind (abridged (fun p => name (0 :: p)) content)

/-- The same for members, the first of which has the number `i`. -/
def abridgedFrom (name : Position → Text) (i : Nat) : List Expr → List Expr
  | [] => []
  | e :: rest => abridged (fun p => name (i :: p)) e :: abridgedFrom name (i + 1) rest

end

/-- The body with a name in the place of every maximal choice below its top. -/
def abridgedBelow (name : Position → Text) : Expr → Expr
  | symbol target => symbol target
  | terminal kind value => terminal kind value
  | blank => blank
  | sequence members => sequence (abridgedFrom name 0 members)
  | choice members => choice (abridgedFrom name 0 members)
  | repetition kind content => repetition kind (abridged (fun p => name (0 :: p)) content)

end Expr

/-! ## A step by places -/

/-- The naming gives places, in their order, the names that an owner draws next. -/
def NameSupply.Gives (s : NameSupply) (owner : Text) (name : Position → Text)
    (places : List Place) : Prop :=
  places.map (fun place => name place.position) = (s.drawMany owner places.length).1

/-- What is drawn for two lists of places is drawn for the first and then for the second. -/
theorem NameSupply.gives_append_iff {s : NameSupply} {owner : Text} {name : Position → Text}
    {a b : List Place} :
    s.Gives owner name (a ++ b) ↔
      s.Gives owner name a ∧ (s.drawMany owner a.length).2.Gives owner name b := by
  unfold Gives
  rw [List.map_append, List.length_append, drawMany_add]
  constructor
  · intro h
    exact List.append_inj h (by rw [List.length_map, length_drawMany])
  · rintro ⟨hFirst, hSecond⟩
    rw [hFirst, hSecond]

/-- Seen from further out, places have longer positions. -/
theorem NameSupply.gives_within_iff {s : NameSupply} {owner : Text} {name : Position → Text}
    {outer : Position} {places : List Place} :
    s.Gives owner name (places.map (Place.within outer)) ↔
      s.Gives owner (fun p => name (outer ++ p)) places := by
  unfold Gives
  rw [List.map_map, List.length_map]
  exact Iff.rfl

namespace Expr

mutual

/-- What is left of an expression has the names of its maximal places. -/
theorem extract_result (owner : Text) (e : Expr) (s : NameSupply) (name : Position → Text)
    (h : s.Gives owner name e.maximalPlaces) :
    (e.extract owner s).result = e.abridged name := by
  cases e with
  | choice members =>
      have hName : name [] = (s.draw owner).1 := (List.cons.inj h).1
      rw [extract, abridged, hName]
  | sequence members =>
      rw [maximalPlaces] at h
      rw [extract, abridged]
      exact congrArg sequence (extractMembers_result owner 0 members s name h)
  | repetition kind content =>
      rw [maximalPlaces, NameSupply.gives_within_iff] at h
      rw [extract, abridged]
      exact congrArg (repetition kind) (extract_result owner content s _ h)
  | symbol target => rfl
  | terminal kind value => rfl
  | blank => rfl

/-- The same for members. -/
theorem extractMembers_result (owner : Text) (i : Nat) (members : List Expr) (s : NameSupply)
    (name : Position → Text) (h : s.Gives owner name (maximalPlacesFrom i members)) :
    (extractMembers owner members s).result = abridgedFrom name i members := by
  cases members with
  | nil => rfl
  | cons e rest =>
      rw [maximalPlacesFrom, NameSupply.gives_append_iff, NameSupply.gives_within_iff] at h
      obtain ⟨hFirst, hRest⟩ := h
      have hSupply : (e.extract owner s).supply = (s.drawMany owner e.maximalPlaces.length).2 := by
        rw [(extract_spec owner e s).2, ← map_choice_maximalPlaces, List.length_map]
      rw [List.length_map, ← hSupply] at hRest
      rw [extractMembers, abridgedFrom]
      simp only
      rw [extract_result owner e s _ hFirst, extractMembers_result owner (i + 1) rest _ name hRest]
      rfl

end

/-- What is left of a body has the names of the maximal places below its top. -/
theorem extractBelow_result {owner : Text} {e : Expr} {s : NameSupply} {name : Position → Text}
    (h : s.Gives owner name e.placesBelow) :
    (e.extractBelow owner s).result = e.abridgedBelow name := by
  cases e with
  | choice members => exact congrArg choice (extractMembers_result owner 0 members s name h)
  | sequence members => exact extract_result owner (sequence members) s name h
  | repetition kind content =>
      rw [← maximalPlaces_eq_placesBelow fun _ => by simp] at h
      exact extract_result owner (repetition kind content) s name h
  | symbol target => rfl
  | terminal kind value => rfl
  | blank => rfl

end Expr

namespace Hoisting

/-- The rules that are made of the choices at some places and wait for their step. -/
def waiting (name : Position → Text) (places : List Place) : List Rule :=
  places.map fun place => Rule.made (name place.position) place.choice

/-- What the rules made of the choices at some places come to. -/
def finished (name : Position → Text) (places : List Place) : List Rule :=
  places.map fun place => Rule.made (name place.position)
    (place.choice.abridgedBelow fun p => name (place.position ++ p))

theorem waiting_append (name : Position → Text) (a b : List Place) :
    waiting name (a ++ b) = waiting name a ++ waiting name b := List.map_append

theorem finished_append (name : Position → Text) (a b : List Place) :
    finished name (a ++ b) = finished name a ++ finished name b := List.map_append

end Hoisting

open Hoisting

/-- A step in terms of places: the body is left with the names of its maximal places, and the
choices there are what waits next. -/
theorem Rule.hoisted_eq {rule : Rule} {owner : Text} {s : NameSupply} {name : Position → Text}
    (h : s.Gives owner name rule.body.placesBelow) :
    rule.hoisted owner s = ⟨{ rule with body := rule.body.abridgedBelow name },
      waiting name rule.body.placesBelow,
      (s.drawMany owner rule.body.placesBelow.length).2⟩ := by
  have hLength : rule.body.choicesBelow.length = rule.body.placesBelow.length := by
    rw [← Expr.map_choice_placesBelow, List.length_map]
  have hResult : (rule.hoisted owner s).result =
      { rule with body := rule.body.abridgedBelow name } := by
    rw [← Expr.extractBelow_result h]
    rfl
  have hAdded : (rule.hoisted owner s).added = waiting name rule.body.placesBelow := by
    rw [rule.hoisted_added, hLength, ← h, ← Expr.map_choice_placesBelow, allMade,
      List.zipWith_map_left, List.zipWith_map_right, List.zipWith_self]
    rfl
  have hSupply : (rule.hoisted owner s).supply =
      (s.drawMany owner rule.body.placesBelow.length).2 := by
    rw [rule.hoisted_supply, hLength]
  rw [← hResult, ← hAdded, ← hSupply]

/-! ## A queue by levels -/

namespace Hoisting

/-- The step of a rule that is made of the choice at a place. -/
theorem hoisted_made {owner : Text} {s : NameSupply} {name : Position → Text} {place : Place}
    (h : s.Gives owner name place.below) :
    (Rule.made (name place.position) place.choice).hoisted owner s =
      ⟨Rule.made (name place.position)
          (place.choice.abridgedBelow fun p => name (place.position ++ p)),
        waiting name place.below, (s.drawMany owner place.below.length).2⟩ := by
  rw [Place.below, NameSupply.gives_within_iff] at h
  have hStep : (Rule.made (name place.position) place.choice).hoisted owner s = _ :=
    Rule.hoisted_eq h
  rw [hStep, Place.below, List.length_map, waiting, waiting, List.map_map]
  rfl

/-- A queue lets the rules at its head through in order, and what they leave to do lines up behind
all others in the same order. -/
theorem drained_level {owner : Text} {name : Position → Text} {level others : List Place}
    {s : NameSupply} (h : s.Gives owner name (level.flatMap Place.below)) :
    (drained owner (waiting name (level ++ others)) s).rules = finished name level ++
      (drained owner (waiting name (others ++ level.flatMap Place.below))
        (s.drawMany owner (level.flatMap Place.below).length).2).rules := by
  induction level generalizing others s with
  | nil =>
      rw [List.flatMap_nil, List.append_nil]
      rfl
  | cons place rest ih =>
      rw [List.flatMap_cons, NameSupply.gives_append_iff] at h
      obtain ⟨hPlace, hRest⟩ := h
      have hStep := hoisted_made hPlace
      have hQueue : waiting name (rest ++ others) ++ waiting name place.below =
          waiting name (rest ++ (others ++ place.below)) := by
        rw [← waiting_append, List.append_assoc]
      show (drained owner (Rule.made (name place.position) place.choice ::
        waiting name (rest ++ others)) s).rules = _
      rw [drained_cons_rules, hStep]
      simp only
      rw [hQueue, ih hRest, List.flatMap_cons, List.length_append, NameSupply.drawMany_add,
        List.append_assoc]
      rfl

/-- A queue works in breadth-first order: the rules of a level come out as they went in, and after
them those of the levels below. -/
theorem drained_waiting {owner : Text} {name : Position → Text} {depth : Nat}
    {level : List Place} {s : NameSupply}
    (hSize : ∀ place ∈ level, place.choice.size ≤ depth)
    (h : s.Gives owner name (Place.levels depth (level.flatMap Place.below))) :
    (drained owner (waiting name level) s).rules = finished name (Place.levels depth level) := by
  induction depth generalizing level s with
  | zero =>
      rw [Place.eq_nil_of_size_le_zero hSize]
      exact congrArg Drained.rules (drained_nil owner s)
  | succ depth ih =>
      rw [Place.levels, NameSupply.gives_append_iff] at h
      obtain ⟨hNext, hLower⟩ := h
      have hDrain := @drained_level owner name _ [] s hNext
      rw [List.append_nil, List.nil_append,
        ih (Place.size_le_of_mem_flatMap_below hSize) hLower] at hDrain
      rw [hDrain, Place.levels, finished_append]

/-- A declared rule with a naming of its nested places: what is left of it, and the rules that it
gives rise to. -/
theorem hoisted_offspring_eq {rule : Rule} {s : NameSupply} {name : Position → Text}
    (h : s.Gives rule.name name rule.body.nestedPlaces) :
    (rule.hoisted rule.name s).result = { rule with body := rule.body.abridgedBelow name } ∧
      offspring rule s = finished name rule.body.nestedPlaces := by
  rw [Expr.nestedPlaces_eq, NameSupply.gives_append_iff] at h
  obtain ⟨hFirst, hLower⟩ := h
  have hStep := Rule.hoisted_eq hFirst
  refine ⟨congrArg Extracted.result hStep, ?_⟩
  rw [offspring, hStep]
  exact drained_waiting (fun place hPlace => Nat.le_of_lt (Expr.size_lt_of_mem_placesBelow hPlace))
    hLower

end Hoisting

/-! ## The names of nested choices -/

/-- The names of an owner that are not declared, numbered in increasing order. -/
noncomputable def freeName (declared : Set Text) (owner : Text) (i : Nat) : Text :=
  numberedName owner (Nat.nth (fun k => numberedName owner k ∉ declared) i)

/-- The name of the rule made of the choice at a position of an owner's body. -/
noncomputable def nameAt (declared : Set Text) (owner : Text) (body : Expr) (p : Position) : Text :=
  freeName declared owner ((body.nestedPlaces.map Place.position).idxOf p)

/-- The rules that an owner's body gives rise to when some names are declared. -/
noncomputable def family (declared : Set Text) (owner : Text) (body : Expr) : List Rule :=
  finished (nameAt declared owner body) body.nestedPlaces

/-- What is left of a rule when some names are declared; of an extra, all of it. -/
noncomputable def Rule.abridged (declared : Set Text) (rule : Rule) : Rule :=
  if rule.isExtra then rule
  else { rule with body := rule.body.abridgedBelow (nameAt declared rule.name rule.body) }

theorem map_nameAt (declared : Set Text) (owner : Text) (body : Expr) :
    body.nestedPlaces.map (fun place => nameAt declared owner body place.position) =
      (List.range body.nestedPlaces.length).map (freeName declared owner) := by
  refine List.ext_getElem (by simp) fun i hi _ => ?_
  have hPositions : i < (body.nestedPlaces.map Place.position).length := by
    simpa using hi
  have hIndex := (Expr.nodup_nestedPlaces body).idxOf_getElem i hPositions
  rw [List.getElem_map] at hIndex
  rw [List.getElem_map, List.getElem_map, List.getElem_range, nameAt, hIndex]

theorem names_family (declared : Set Text) (owner : Text) (body : Expr) :
    names (family declared owner body) =
      (List.range body.nestedPlaces.length).map (freeName declared owner) := by
  rw [← map_nameAt, names, family, finished, List.map_map]
  rfl

/-- With fresh counters an owner draws the names that are not declared, in increasing order. -/
theorem gives_nameAt (order : List Text) (owner : Text) (body : Expr) :
    NameSupply.Gives ⟨{}, order⟩ owner (nameAt { name | name ∈ order } owner body)
      body.nestedPlaces := by
  have hFree : ∀ k, ((({} : NameCounters).count owner ≤ k ∧ numberedName owner k ∉ order) ↔
      numberedName owner k ∉ { name | name ∈ order }) := by
    intro k
    exact and_iff_right (Nat.zero_le k)
  rw [NameSupply.Gives, map_nameAt, NameSupply.drawMany_eq_map_nth]
  simp only [hFree]
  rfl

namespace Grammar

/-- The declared names of a grammar. -/
def declaredNames (g : Grammar) : Set Text := { name | name ∈ g.order }

/-- With fresh counters, the hoisted grammar has the declared rules in their places, each with the
names of its maximal nested choices; and behind them, owner by owner, the rules made of the nested
choices in breadth-first order. Each owner's are numbered through by themselves, in increasing
order and without the declared names. -/
theorem rules_hoist {name : Text} {rules : List Rule} {root : Option Text} {extras : List Text}
    {g : Grammar} (hBuilt : ofRules name rules root extras = .ok g) :
    (g.Hoistable → ∃ hoisted, g.hoist {} = .ok hoisted ∧
      hoisted.order = g.order ++ g.declared.flatMap (fun owner =>
        (List.range owner.body.nestedPlaces.length).map (freeName g.declaredNames owner.name)) ∧
      hoisted.rules = g.rules.map (Rule.abridged g.declaredNames) ++
        g.declared.flatMap (fun owner => family g.declaredNames owner.name owner.body) ∧
      ∀ owner ∈ g.declared, (owner.body.nestedPlaces.map Place.position).Nodup ∧
        ∀ place, place ∈ owner.body.nestedPlaces ↔ place.position ≠ [] ∧
          owner.body.part? place.position = some place.choice ∧
          ∃ members, place.choice = .choice members) ∧
    (¬ g.Hoistable → g.hoist {} = .error .referenceNotUnicode) := by
  have hWell := wellFormed_of_ofRules hBuilt
  have hOwner : ∀ rule : Rule,
      (rule.hoisted rule.name (g.supply {})).result = { rule with
        body := rule.body.abridgedBelow (nameAt g.declaredNames rule.name rule.body) } ∧
      offspring rule (g.supply {}) = family g.declaredNames rule.name rule.body :=
    fun rule => hoisted_offspring_eq (gives_nameAt g.order rule.name rule.body)
  have hMade : g.declared.flatMap (offspring · (g.supply {})) =
      g.declared.flatMap fun owner => family g.declaredNames owner.name owner.body :=
    List.flatMap_congr fun owner _ => (hOwner owner).2
  refine hWell.hoist_cases {} ⟨?_, ?_, ?_⟩
  · have hInvented : g.invented {} = g.declared.flatMap fun owner =>
        (List.range owner.body.nestedPlaces.length).map (freeName g.declaredNames owner.name) := by
      rw [invented, synthetic_eq hWell, hMade, names, List.map_flatMap]
      exact List.flatMap_congr fun owner _ => names_family _ _ _
    rw [order_hoisted, hInvented]
  · rw [rules_hoisted hWell, hMade]
    refine congrArg (· ++ _) (List.map_congr_left fun rule _ => ?_)
    rw [left, (hOwner rule).1, Rule.abridged]
  · intro owner _
    exact ⟨owner.body.nodup_nestedPlaces, fun place => Expr.mem_nestedPlaces_iff⟩

/-- A rule whose second name is declared, and the rule of that name. -/
def crowded : Grammar where
  name := "crowded"
  root := "p"
  rules := [
    { name := "p"
      body := .sequence [.choice [.blank, .repetition .zeroOrMore (.choice [.blank, .symbol "p"])],
        .symbol "p_1", .choice [.symbol "p", .blank]] },
    { name := "p_1", body := .repetition .oneOrMore (.choice [.symbol "p", .symbol "p_1"]) }]
  extras := []

theorem rules_hoist_crowded :
    ∃ hoisted, crowded.hoist {} = .ok hoisted ∧
      hoisted.order = (["p", "p_1", "p_0", "p_2", "p_3", "p_1_0"] : List Text) ∧
      hoisted.order = crowded.order ++ crowded.declared.flatMap (fun owner =>
        (List.range owner.body.nestedPlaces.length).map
          (freeName crowded.declaredNames owner.name)) ∧
      crowded.declared.map (fun owner => owner.body.nestedPlaces.map Place.position) =
        [[[0], [2], [0, 1, 0]], [[0]]] := by
  have hBuilt : ofRules "crowded" crowded.rules none [] = .ok crowded := by decide
  obtain ⟨hoisted, hHoisted, hOrder, -⟩ := (rules_hoist hBuilt).1 (by decide)
  have hNames : (crowded.hoist {}).map Grammar.order =
      .ok (["p", "p_1", "p_0", "p_2", "p_3", "p_1_0"] : List Text) := by decide +kernel
  rw [hHoisted] at hNames
  exact ⟨hoisted, hHoisted, Except.ok.inj hNames, hOrder, by decide⟩

/-- There is a grammar of which hoisting makes no names. -/
theorem exists_rules_hoist_undefined :
    ∃ g, ofRules "g" [.misnamed] none [] = .ok g ∧ ∀ hoisted, g.hoist {} ≠ .ok hoisted :=
  ⟨misnamed, ofRules_misnamed, fun _ h => not_hoistable_misnamed (hoistable_of_hoist h)⟩

end Grammar

end TreeTypes

import TreeTypes.Proofs.Hoisting.Harvest

/-!
# Every rule is hoisted as if it were alone

A harvest goes through the rules with one supply of names, and the supply
changes with every rule. Still the outcome is a rule by rule affair: what a
rule comes to, and what it gives rise to, can be computed from the supply that
the harvest starts from, as though the other rules were not there.

That the owners do not get in each other's way has one reason. A numbered name
determines its owner, so what other owners draw changes neither an owner's
counter nor which of its own names are in use. Two supplies that agree about
these (`NameSupply.Agrees`) lead an owner to the same answers through a step,
a queue and a whole family.

## Main results

* `NameSupply.Agrees.drained_eq` — agreeing supplies give the same rules.
* `Hoisting.harvested_eq` — a harvest, rule by rule.
* `Hoisting.mem_names_harvested_iff` — exactly which names are made.
-/

namespace TreeTypes

open Hoisting

/-! ## Supplies that agree -/

/-- There is one least free number. -/
theorem NameSupply.IsNext.unique {s : NameSupply} {owner : Text} {j k : Nat}
    (hj : s.IsNext owner j) (hk : s.IsNext owner k) : j = k := by
  rcases Nat.lt_trichotomy j k with hBefore | hSame | hAfter
  · exact absurd (hk.mem_taken j hj.count_le hBefore) hj.notMem_taken
  · exact hSame
  · exact absurd (hj.mem_taken k hk.count_le hAfter) hk.notMem_taken

/-- Two supplies give an owner the same names. -/
structure NameSupply.Agrees (owner : Text) (s t : NameSupply) : Prop where
  count_eq : s.counters.count owner = t.counters.count owner
  taken_iff : ∀ k, numberedName owner k ∈ s.taken ↔ numberedName owner k ∈ t.taken

/-- The results of two steps: the same, with supplies that agree for the owner. -/
structure Extracted.Agrees {α : Type} (owner : Text) (x y : Extracted α) : Prop where
  result_eq : x.result = y.result
  added_eq : x.added = y.added
  supply : x.supply.Agrees owner y.supply

namespace NameSupply.Agrees

variable {owner : Text} {s t : NameSupply}

/-- Supplies with the same counters and the same names in use agree for every owner. -/
theorem of_mem_iff {counters : NameCounters} {taken taken' : List Text}
    (h : ∀ name, name ∈ taken ↔ name ∈ taken') (owner : Text) :
    NameSupply.Agrees owner ⟨counters, taken⟩ ⟨counters, taken'⟩ := ⟨rfl, fun _ => h _⟩

/-- Drawing for one owner makes no difference to another. -/
theorem drawMany {other : Text} (hOther : owner ≠ other) (n : Nat) (s : NameSupply) :
    (s.drawMany other n).2.Agrees owner s := by
  refine ⟨drawMany_count_of_ne hOther n s, fun k => ?_⟩
  rw [mem_drawMany_taken]
  constructor
  · rintro (hDrawn | hTaken)
    · obtain ⟨j, hName, -⟩ := (NameSupply.mem_drawMany_iff other n s _).1 hDrawn
      exact absurd (numberedName_inj.1 hName).1 hOther
    · exact hTaken
  · exact Or.inr

theorem isNext (h : s.Agrees owner t) {k : Nat} (hNext : s.IsNext owner k) :
    t.IsNext owner k := by
  constructor
  · rw [← h.count_eq]
    exact hNext.count_le
  · rw [← h.taken_iff]
    exact hNext.notMem_taken
  · intro j hLow hHigh
    rw [← h.count_eq] at hLow
    exact (h.taken_iff j).1 (hNext.mem_taken j hLow hHigh)

/-- A draw gives the same name, and the supplies agree afterwards. -/
theorem draw (h : s.Agrees owner t) :
    (s.draw owner).1 = (t.draw owner).1 ∧ (s.draw owner).2.Agrees owner (t.draw owner).2 := by
  obtain ⟨k, hNext, hName, hTaken, hCount, -⟩ := s.draw_spec owner
  obtain ⟨k', hNext', hName', hTaken', hCount', -⟩ := t.draw_spec owner
  have hSame : k = k' := (h.isNext hNext).unique hNext'
  subst hSame
  refine ⟨hName.trans hName'.symm, hCount.trans hCount'.symm, fun j => ?_⟩
  rw [hTaken, hTaken', List.mem_cons, List.mem_cons, h.taken_iff]

mutual

/-- An expression is taken apart in the same way. -/
theorem extract {s t : NameSupply} (h : s.Agrees owner t) (e : Expr) :
    (e.extract owner s).Agrees owner (e.extract owner t) := by
  cases e with
  | choice members =>
      obtain ⟨hName, hSupply⟩ := h.draw
      rw [Expr.extract, Expr.extract, hName]
      exact ⟨rfl, rfl, hSupply⟩
  | sequence members =>
      obtain ⟨hResult, hAdded, hSupply⟩ := h.extractMembers members
      exact ⟨congrArg Expr.sequence hResult, hAdded, hSupply⟩
  | repetition kind content =>
      obtain ⟨hResult, hAdded, hSupply⟩ := h.extract content
      exact ⟨congrArg (Expr.repetition kind) hResult, hAdded, hSupply⟩
  | symbol name => exact ⟨rfl, rfl, h⟩
  | terminal kind value => exact ⟨rfl, rfl, h⟩
  | blank => exact ⟨rfl, rfl, h⟩

/-- Members are taken apart in the same way. -/
theorem extractMembers {s t : NameSupply} (h : s.Agrees owner t) (members : List Expr) :
    (Expr.extractMembers owner members s).Agrees owner
      (Expr.extractMembers owner members t) := by
  cases members with
  | nil => exact ⟨rfl, rfl, h⟩
  | cons e rest =>
      obtain ⟨hResult, hAdded, hSupply⟩ := h.extract e
      obtain ⟨hResults, hOthers, hLast⟩ := hSupply.extractMembers rest
      refine ⟨?_, ?_, hLast⟩
      · show _ :: _ = _ :: _
        rw [hResult, hResults]
      · show _ ++ _ = _ ++ _
        rw [hAdded, hOthers]

end

/-- A step on a rule gives the same. -/
theorem hoisted (h : s.Agrees owner t) (rule : Rule) :
    (rule.hoisted owner s).Agrees owner (rule.hoisted owner t) := by
  have hBody : (rule.body.extractBelow owner s).Agrees owner (rule.body.extractBelow owner t) := by
    cases rule.body with
    | choice members =>
        obtain ⟨hResult, hAdded, hSupply⟩ := h.extractMembers members
        exact ⟨congrArg Expr.choice hResult, hAdded, hSupply⟩
    | sequence members => exact h.extract (.sequence members)
    | repetition kind content => exact h.extract (.repetition kind content)
    | symbol name => exact h.extract (.symbol name)
    | terminal kind value => exact h.extract (.terminal kind value)
    | blank => exact h.extract .blank
  exact ⟨congrArg (fun body => { rule with body }) hBody.result_eq, hBody.added_eq, hBody.supply⟩

/-- A queue comes to the same rules. -/
theorem drained_eq (queue : List Rule) (h : s.Agrees owner t) :
    (drained owner queue s).rules = (drained owner queue t).rules := by
  induction queue, s using drained_induction owner generalizing t with
  | nil s => rw [drained_nil, drained_nil]
  | cons rule waiting s ih =>
      obtain ⟨hResult, hAdded, hSupply⟩ := h.hoisted rule
      rw [drained_cons_rules, drained_cons_rules, hResult, ih hSupply, hAdded]

end NameSupply.Agrees

namespace Hoisting

/-! ## One rule after another, independently -/

/-- What is left of a rule: extras stay, and any other rule is left without nested choices. -/
def left (rule : Rule) (s : NameSupply) : Rule :=
  if rule.isExtra then rule else (rule.hoisted rule.name s).result

theorem left_eq {rule : Rule} {s t : NameSupply} (h : s.Agrees rule.name t) :
    left rule s = left rule t := by
  rw [left, left, (h.hoisted rule).result_eq]

theorem offspring_eq {rule : Rule} {s t : NameSupply} (h : s.Agrees rule.name t) :
    offspring rule s = offspring rule t := by
  rw [offspring, offspring, (h.hoisted rule).added_eq]
  exact NameSupply.Agrees.drained_eq _ (h.hoisted rule).supply

/-- A harvest is what is left of the rules, one by one, and what the rules that are no extras give
rise to, one after another. -/
theorem harvested_eq (rules : List Rule) (s : NameSupply) (hNodup : (names rules).Nodup) :
    (harvested rules s).declared = rules.map (left · s) ∧
      (harvested rules s).synthetic = (own rules).flatMap (offspring · s) := by
  induction rules, s using harvested_induction with
  | nil s => exact ⟨rfl, rfl⟩
  | extra rule rest s hExtra ih =>
      obtain ⟨hDeclared, hSynthetic⟩ := harvested_extra hExtra rest s
      obtain ⟨hLeft, hMade⟩ := ih (List.nodup_cons.1 hNodup).2
      have hStays : left rule s = rule := by rw [left, if_pos hExtra]
      rw [hDeclared, hSynthetic, hLeft, hMade, own_cons_extra hExtra, List.map_cons, hStays]
      exact ⟨rfl, rfl⟩
  | own rule rest s hOwn ih =>
      obtain ⟨hHead, hRest⟩ := List.nodup_cons.1 hNodup
      obtain ⟨hDeclared, hSynthetic⟩ := harvested_own hOwn rest s
      obtain ⟨hLeft, hMade⟩ := ih hRest
      -- The other rules bear other names, so the draws of this one make no difference to them.
      have hAgrees : ∀ other ∈ rest, (supplyAfter rule s).Agrees other.name s := by
        intro other hOther
        have hNe : other.name ≠ rule.name := by
          intro hEq
          apply hHead
          rw [← hEq]
          exact List.mem_map_of_mem hOther
        exact NameSupply.Agrees.drawMany hNe _ s
      have hStep : left rule s = (rule.hoisted rule.name s).result := by
        rw [left, if_neg (by simp [hOwn])]
      rw [hDeclared, hSynthetic, hLeft, hMade, own_cons_own hOwn, List.map_cons, hStep,
        List.flatMap_cons]
      constructor
      · exact congrArg _ (List.map_congr_left fun other hOther => left_eq (hAgrees other hOther))
      · refine congrArg _ (List.flatMap_congr fun other hOther => ?_)
        exact offspring_eq (hAgrees other (mem_own.1 hOther).1)

/-- The names made are the draws that every owner would make first. -/
theorem mem_names_harvested_iff {rules : List Rule} (s : NameSupply) (hNodup : (names rules).Nodup)
    (name : Text) :
    name ∈ names (harvested rules s).synthetic ↔ ∃ owner ∈ rules, owner.isExtra = false ∧
      name ∈ (s.drawMany owner.name owner.body.nestedChoiceCount).1 := by
  rw [(harvested_eq rules s hNodup).2, names, List.map_flatMap, List.mem_flatMap]
  constructor
  · rintro ⟨owner, hOwner, hName⟩
    obtain ⟨hOwner, hOwn⟩ := mem_own.1 hOwner
    exact ⟨owner, hOwner, hOwn, names_offspring owner s ▸ hName⟩
  · rintro ⟨owner, hOwner, hOwn, hName⟩
    rw [← names_offspring] at hName
    exact ⟨owner, mem_own.2 ⟨hOwner, hOwn⟩, hName⟩

end Hoisting

end TreeTypes

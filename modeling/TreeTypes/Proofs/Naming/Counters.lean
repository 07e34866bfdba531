import Mathlib.Data.Finset.Card
import TreeTypes.Proofs.Naming

/-!
# What the counters give

A set of counters is asked for names of many owners, in any order, and it has
no list of the names that it gave. That it repeats none rests on two facts. A
counter only moves forward, so the names that a sequence of calls gives are
those with a number between the owner's counter before and after it. And a name
splits in one way only, so names of different owners differ, even if one owner
is called like a name of another.

Hoisting asks again as long as the name that it gets is in use. This loop has
no bound of its own; the executable search has one, and that it never reaches
it is proved here against the loop without bound, `Stops`. The loop passes over
a different name in use at every turn, so it makes at most one call more than
there are names in use.

## Main definitions

* `NameCounters.Stops` — the loop, with the number of its calls.

## Main results

* `NameCounters.mem_freshAll_iff` — the names that a sequence of calls gives.
* `NameCounters.freshAll_never_repeats` — each of them is given once.
* `NameCounters.stops_at_least_free` — where the loop stops, and when.
-/

namespace TreeTypes

namespace NameCounters

/-! ## Sequences of calls -/

theorem count_advance (c : NameCounters) (owner other : Text) :
    (c.advance owner).count other = c.count other + if owner = other then 1 else 0 := by
  by_cases h : owner = other
  · subst h
    rw [count_advance_self, if_pos rfl]
  · rw [count_advance_of_ne c (Ne.symm h), if_neg h, Nat.add_zero]

theorem freshAll_cons (c : NameCounters) (owner : Text) (rest : List Text) :
    c.freshAll (owner :: rest) =
      (numberedName owner (c.count owner) :: ((c.advance owner).freshAll rest).1,
        ((c.advance owner).freshAll rest).2) := rfl

/-- Every call moves the counter of its owner. -/
theorem count_freshAll (owners : List Text) : ∀ (c : NameCounters) (owner : Text),
    (c.freshAll owners).2.count owner = c.count owner + owners.count owner := by
  induction owners with
  | nil =>
      intro c owner
      rfl
  | cons first rest ih =>
      intro c owner
      rw [freshAll_cons, ih, count_advance, List.count_cons]
      simp only [beq_iff_eq]
      omega

/-- A call gives its owner's name with the number of the calls for that owner before. -/
theorem freshAll_fst (owners : List Text) : ∀ c : NameCounters,
    (c.freshAll owners).1 = owners.mapIdx fun i owner =>
      numberedName owner (c.count owner + (owners.take i).count owner) := by
  induction owners with
  | nil =>
      intro c
      rfl
  | cons first rest ih =>
      intro c
      have hEarlier : ∀ i owner, (c.advance first).count owner + (rest.take i).count owner =
          c.count owner + ((first :: rest).take (i + 1)).count owner := by
        intro i owner
        rw [List.take_succ_cons, List.count_cons, count_advance]
        simp only [beq_iff_eq]
        omega
      rw [freshAll_cons, ih, List.mapIdx_cons]
      simp only [hEarlier]
      rfl

/-- The names that a sequence of calls gives are those that its owners' counters move past. -/
theorem mem_freshAll_iff {owners : List Text} : ∀ {c : NameCounters} {name : Text},
    name ∈ (c.freshAll owners).1 ↔ ∃ owner k, name = numberedName owner k ∧
      c.count owner ≤ k ∧ k < (c.freshAll owners).2.count owner := by
  induction owners with
  | nil =>
      intro c name
      simp [freshAll]
  | cons first rest ih =>
      intro c name
      rw [freshAll_cons, List.mem_cons, ih]
      simp only [count_freshAll, count_advance]
      constructor
      · rintro (rfl | ⟨owner, k, rfl, hLow, hHigh⟩)
        · refine ⟨first, c.count first, rfl, Nat.le_refl _, ?_⟩
          rw [if_pos rfl]
          omega
        · refine ⟨owner, k, rfl, by omega, hHigh⟩
      · rintro ⟨owner, k, rfl, hLow, hHigh⟩
        by_cases hOwner : first = owner
        · subst hOwner
          by_cases hFirst : k = c.count first
          · rw [hFirst]
            exact Or.inl rfl
          · refine Or.inr ⟨first, k, rfl, ?_, hHigh⟩
            rw [if_pos rfl]
            omega
        · refine Or.inr ⟨owner, k, rfl, ?_, hHigh⟩
          rw [if_neg hOwner]
          exact hLow

/-- No sequence of calls gives a name twice, whatever names were given before. -/
theorem nodup_freshAll (owners : List Text) : ∀ c : NameCounters,
    (c.freshAll owners).1.Nodup := by
  induction owners with
  | nil =>
      intro c
      exact List.nodup_nil
  | cons first rest ih =>
      intro c
      rw [freshAll_cons]
      refine List.nodup_cons.2 ⟨?_, ih (c.advance first)⟩
      intro hAgain
      obtain ⟨owner, k, hName, hLow, -⟩ := mem_freshAll_iff.1 hAgain
      obtain ⟨rfl, rfl⟩ := numberedName_inj.1 hName
      rw [count_advance_self] at hLow
      omega

/-- New counters give every name at most once, whatever owners are asked for in whatever order, and
to an owner's call its name with the number of the earlier calls for just that owner. -/
theorem freshAll_never_repeats (owners : List Text) :
    (freshAll {} owners).1.Nodup ∧
      (freshAll {} owners).1 = owners.mapIdx fun i owner =>
        numberedName owner ((owners.take i).count owner) := by
  refine ⟨nodup_freshAll owners {}, ?_⟩
  have hNew : ∀ owner, ({} : NameCounters).count owner = 0 := fun _ => rfl
  rw [freshAll_fst]
  simp only [hNew, Nat.zero_add]

/-- Owners that are called like names of each other, and one without a name. -/
example : (freshAll {} ["a", "a_0", "", "a", "_", "a_0"]).1 =
    (["a_0", "a_0_0", "_0", "a_1", "__0", "a_0_1"] : List Text) := by decide

/-! ## The loop -/

/-- The loop that asks for names of an owner while they are in use stops after some calls, with a
name and the counters after it. -/
inductive Stops (owner : Text) (taken : List Text) :
    NameCounters → (calls : Nat) → Text × NameCounters → Prop
  | free {c : NameCounters} (h : (c.fresh owner).1 ∉ taken) : Stops owner taken c 1 (c.fresh owner)
  | again {c : NameCounters} {calls : Nat} {result : Text × NameCounters}
      (h : (c.fresh owner).1 ∈ taken) (rest : Stops owner taken (c.fresh owner).2 calls result) :
      Stops owner taken c (calls + 1) result

namespace Stops

variable {owner : Text} {taken : List Text} {c : NameCounters} {calls : Nat}
  {result : Text × NameCounters}

/-- The loop can stop in one way only. -/
theorem unique (h : Stops owner taken c calls result) {others : Nat} {other : Text × NameCounters}
    (hOther : Stops owner taken c others other) : others = calls ∧ other = result := by
  induction h generalizing others with
  | free hFree =>
      cases hOther with
      | free => exact ⟨rfl, rfl⟩
      | again hTaken => exact absurd hTaken hFree
  | again hTaken _ ih =>
      cases hOther with
      | free hFree => exact absurd hTaken hFree
      | again _ hRest =>
          obtain ⟨hCalls, hResult⟩ := ih hRest
          exact ⟨by omega, hResult⟩

/-- A search that may make as many calls as the loop makes finds what the loop stops with. -/
theorem search_eq (h : Stops owner taken c calls result) {draws : Nat} (hDraws : calls ≤ draws + 1) :
    c.search owner taken draws = result := by
  induction h generalizing draws with
  | @free c hFree =>
      cases draws with
      | zero => rfl
      | succ draws =>
          show (if (c.fresh owner).1 ∈ taken then _ else c.fresh owner) = c.fresh owner
          rw [if_neg hFree]
  | @again c calls result hTaken hRest ih =>
      cases draws with
      | zero =>
          have hCalls : 0 < calls := by cases hRest <;> omega
          omega
      | succ draws =>
          show (if (c.fresh owner).1 ∈ taken then (c.fresh owner).2.search owner taken draws
            else c.fresh owner) = result
          rw [if_pos hTaken]
          apply ih
          omega

end Stops

/-- The loop stops at the least free number, with a call for every number that it passes over and
one for the last. -/
theorem exists_stops_of_isNext {owner : Text} {taken : List Text} (turns : Nat) :
    ∀ {c : NameCounters} {k : Nat}, NameSupply.IsNext ⟨c, taken⟩ owner k → k = c.count owner + turns →
      ∃ last : NameCounters, Stops owner taken c (turns + 1) (numberedName owner k, last) ∧
        last.count owner = k + 1 ∧ ∀ other, other ≠ owner → last.count other = c.count other := by
  induction turns with
  | zero =>
      intro c k hNext hTurns
      have hHere : k = c.count owner := by omega
      subst hHere
      exact ⟨c.advance owner, Stops.free hNext.notMem_taken, count_advance_self c owner,
        fun other hOther => count_advance_of_ne c hOther⟩
  | succ turns ih =>
      intro c k hNext hTurns
      have hTaken : numberedName owner (c.count owner) ∈ taken :=
        hNext.mem_taken _ (Nat.le_refl _) (by omega)
      have hLater : NameSupply.IsNext ⟨c.advance owner, taken⟩ owner k := by
        refine ⟨?_, hNext.notMem_taken, ?_⟩
        · show (c.advance owner).count owner ≤ k
          rw [count_advance_self]
          omega
        · intro j hLow hHigh
          have hLow : (c.advance owner).count owner ≤ j := hLow
          rw [count_advance_self] at hLow
          exact hNext.mem_taken j (Nat.le_of_lt hLow) hHigh
      have hCount : k = (c.advance owner).count owner + turns := by
        rw [count_advance_self]
        omega
      obtain ⟨last, hStops, hSelf, hOthers⟩ := ih hLater hCount
      refine ⟨last, Stops.again hTaken hStops, hSelf, fun other hOther => ?_⟩
      rw [hOthers other hOther, count_advance_of_ne c hOther]

/-- What the loop passes over are different names in use. -/
theorem le_card_of_isNext {owner : Text} {taken : List Text} {c : NameCounters} {k : Nat}
    (hNext : NameSupply.IsNext ⟨c, taken⟩ owner k) : k - c.count owner ≤ taken.toFinset.card := by
  have hPassed : ∀ j, c.count owner ≤ j → j < c.count owner + (k - c.count owner) →
      numberedName owner j ∈ taken.dedup := by
    intro j hLow hHigh
    apply List.mem_dedup.2
    exact hNext.mem_taken j hLow (by omega)
  rw [List.card_toFinset]
  exact length_le_of_numberedNames_mem hPassed

/-- The loop stops, and in one way only: with the name of the least number from the owner's counter
on that is not in use, after a call for each number up to that, which is at most one call more than
there are names in use. The owner's counter then stands behind that number and the others where
they stood, and a draw from a supply does what the loop does. -/
theorem stops_at_least_free (owner : Text) (taken : List Text) (c : NameCounters) :
    ∃ k last, c.count owner ≤ k ∧ numberedName owner k ∉ taken ∧
      (∀ j, c.count owner ≤ j → j < k → numberedName owner j ∈ taken) ∧
      (∀ calls result, Stops owner taken c calls result ↔
        calls = k - c.count owner + 1 ∧ result = (numberedName owner k, last)) ∧
      k - c.count owner + 1 ≤ taken.toFinset.card + 1 ∧
      last.count owner = k + 1 ∧ (∀ other, other ≠ owner → last.count other = c.count other) ∧
      (NameSupply.mk c taken).draw owner =
        (numberedName owner k, ⟨last, numberedName owner k :: taken⟩) := by
  obtain ⟨k, hNext, -⟩ := NameSupply.draw_spec ⟨c, taken⟩ owner
  have hLow : c.count owner ≤ k := hNext.count_le
  have hCard := le_card_of_isNext hNext
  obtain ⟨last, hStops, hSelf, hOthers⟩ :=
    exists_stops_of_isNext (k - c.count owner) hNext (by omega)
  have hEnough : taken.toFinset.card ≤ taken.length := List.toFinset_card_le taken
  have hSearch : c.search owner taken taken.length = (numberedName owner k, last) :=
    hStops.search_eq (by omega)
  refine ⟨k, last, hLow, hNext.notMem_taken, hNext.mem_taken, ?_, by omega, hSelf, hOthers, ?_⟩
  · intro calls result
    constructor
    · intro hOther
      exact hStops.unique hOther
    · rintro ⟨rfl, rfl⟩
      exact hStops
  · show ((c.search owner taken taken.length).1, (⟨(c.search owner taken taken.length).2,
      (c.search owner taken taken.length).1 :: taken⟩ : NameSupply)) = _
    rw [hSearch]

end NameCounters

end TreeTypes

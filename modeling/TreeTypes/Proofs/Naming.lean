import Mathlib.Data.List.Nodup
import Mathlib.Data.Nat.Nth
import TreeTypes.Naming

/-!
# Drawn names are new, and known in advance

Hoisting draws names from one supply for all rules, and everything that is
said about it later rests on two facts about that supply.

The first is that a drawn name is new: it was not in use before, and it is in
use afterwards. A numbered name determines its owner and its number, because
a numeral is determined by its digits and holds no underscore, so successive
draws of one owner pass over different names and `taken.length` of them are
always enough.

The second is which names are drawn. The numbers of an owner that are free,
that is, whose names are not in use, are handed out in increasing order from
the owner's counter on, and what other owners draw in between changes nothing
about them.

## Main results

* `numberedName_inj` — owner and number are determined by the name.
* `NameSupply.draw_spec` — a draw finds the least free number.
* `NameSupply.drawMany` and `NameSupply.mem_drawMany_iff` — which names a
  sequence of draws hands out.
* `NameSupply.drawMany_eq_map_nth` — and in which order.
-/

namespace TreeTypes

/-! ## Numerals and numbered names -/

/-- A number is determined by its numeral. -/
theorem Text.numeral_injective {m n : Nat} (h : numeral m = numeral n) : m = n := by
  have hDigits : Nat.toDigits 10 m = Nat.toDigits 10 n :=
    List.map_injective_iff.2 (fun _ _ hEq => CodePoint.char.inj hEq) h
  have hValues := congrArg (fun digits => Nat.ofDigitChars 10 digits 0) hDigits
  simpa only [Nat.ofDigitChars_ten_toDigits] using hValues

/-- No digit is an underscore. -/
theorem Text.underscore_notMem_numeral (n : Nat) : CodePoint.char '_' ∉ numeral n := by
  intro h
  obtain ⟨c, hMem, hEq⟩ := List.mem_map.1 h
  rw [CodePoint.char.inj hEq] at hMem
  exact Nat.underscore_not_in_toDigits hMem

theorem numberedName_eq (owner : Text) (k : Nat) :
    numberedName owner k = owner ++ CodePoint.char '_' :: Text.numeral k := by
  show ([owner, [CodePoint.char '_'], Text.numeral k] : List Text).flatten = _
  simp

/-- A list splits in one way only at the last occurrence of a separator. -/
theorem append_cons_inj_of_notMem {α : Type} {a b x y : List α} {u : α} (hx : u ∉ x) (hy : u ∉ y)
    (h : a ++ u :: x = b ++ u :: y) : a = b ∧ x = y := by
  rcases List.append_eq_append_iff.1 h with ⟨c, hb, hc⟩ | ⟨c, ha, hc⟩
  · cases c with
    | nil => simpa using And.intro hb.symm hc
    | cons v c =>
        rw [List.cons_append, List.cons.injEq] at hc
        exact absurd (by rw [hc.2]; simp) hx
  · cases c with
    | nil => simpa using And.intro ha hc.symm
    | cons v c =>
        rw [List.cons_append, List.cons.injEq] at hc
        exact absurd (by rw [hc.2]; simp) hy

/-- A numbered name splits at its last underscore. -/
theorem numberedName_inj {p q : Text} {j k : Nat} :
    numberedName p j = numberedName q k ↔ p = q ∧ j = k := by
  constructor
  · intro h
    rw [numberedName_eq, numberedName_eq] at h
    obtain ⟨hOwner, hNumeral⟩ := append_cons_inj_of_notMem
      (Text.underscore_notMem_numeral j) (Text.underscore_notMem_numeral k) h
    exact ⟨hOwner, Text.numeral_injective hNumeral⟩
  · rintro ⟨rfl, rfl⟩
    rfl

theorem numberedName_ne_nil (owner : Text) (k : Nat) : numberedName owner k ≠ [] := by
  rw [numberedName_eq]
  simp

/-- Digits and the underscore are characters, so a numbered name is made of characters if the
owner's is. -/
theorem isUnicode_numberedName (owner : Text) (k : Nat) :
    (numberedName owner k).isUnicode = owner.isUnicode := by
  have hNumeral : (Text.numeral k).all (·.char?.isSome) = true := by
    rw [Text.numeral, List.all_map]
    simp [CodePoint.char?]
  rw [numberedName_eq, Text.isUnicode, List.all_append, List.all_cons, hNumeral]
  simp [CodePoint.char?, Text.isUnicode]

/-! ## One draw -/

namespace NameCounters

/-- The search stops at the first free number, unless all the numbers that it may pass over are
taken. -/
theorem search_spec (owner : Text) (taken : List Text) : ∀ (draws : Nat) (c : NameCounters),
    ∃ k, c.count owner ≤ k ∧ k ≤ c.count owner + draws ∧
      (∀ j, c.count owner ≤ j → j < k → numberedName owner j ∈ taken) ∧
      (k < c.count owner + draws → numberedName owner k ∉ taken) ∧
      (c.search owner taken draws).1 = numberedName owner k ∧
      (c.search owner taken draws).2.count owner = k + 1 ∧
      ∀ other, other ≠ owner → (c.search owner taken draws).2.count other = c.count other := by
  intro draws
  induction draws with
  | zero =>
      intro c
      refine ⟨c.count owner, Nat.le_refl _, Nat.le_refl _, ?_, ?_, rfl, ?_, ?_⟩
      · intro j hLow hHigh
        omega
      · intro h
        omega
      · exact count_advance_self c owner
      · intro other hOther
        exact count_advance_of_ne c hOther
  | succ draws ih =>
      intro c
      by_cases hTaken : numberedName owner (c.count owner) ∈ taken
      · have hSearch : c.search owner taken (draws + 1) =
            (c.advance owner).search owner taken draws := by
          simp [search, fresh, hTaken]
        obtain ⟨k, hLow, hHigh, hPassed, hFree, hName, hSelf, hOthers⟩ := ih (c.advance owner)
        rw [count_advance_self] at hLow hHigh hPassed hFree
        refine ⟨k, by omega, by omega, ?_, ?_, ?_, ?_, ?_⟩
        · intro j hj hk
          by_cases hFirst : j = c.count owner
          · rw [hFirst]
            exact hTaken
          · exact hPassed j (by omega) hk
        · intro hk
          exact hFree (by omega)
        · rw [hSearch, hName]
        · rw [hSearch, hSelf]
        · intro other hOther
          rw [hSearch, hOthers other hOther, count_advance_of_ne c hOther]
      · have hSearch : c.search owner taken (draws + 1) = c.fresh owner := by
          simp [search, fresh, hTaken]
        rw [hSearch]
        refine ⟨c.count owner, Nat.le_refl _, by omega, ?_, fun _ => hTaken, rfl, ?_, ?_⟩
        · intro j hLow hHigh
          omega
        · exact count_advance_self c owner
        · intro other hOther
          exact count_advance_of_ne c hOther

end NameCounters

/-- More successive names than there are names in use cannot all be in use. -/
theorem length_le_of_numberedNames_mem {owner : Text} {taken : List Text} {start n : Nat}
    (h : ∀ j, start ≤ j → j < start + n → numberedName owner j ∈ taken) : n ≤ taken.length := by
  have hNodup : ((List.range' start n).map (numberedName owner)).Nodup := by
    refine List.Nodup.map ?_ List.nodup_range'
    intro i j hEq
    exact (numberedName_inj.1 hEq).2
  have hSubset : (List.range' start n).map (numberedName owner) ⊆ taken := by
    intro name hName
    obtain ⟨j, hj, rfl⟩ := List.mem_map.1 hName
    rw [List.mem_range'_1] at hj
    exact h j hj.1 hj.2
  have hLength := hNodup.length_le_of_subset hSubset
  simpa using hLength

namespace NameSupply

/-- The least free number of an owner from a supply's counter on. -/
structure IsNext (s : NameSupply) (owner : Text) (k : Nat) : Prop where
  count_le : s.counters.count owner ≤ k
  notMem_taken : numberedName owner k ∉ s.taken
  mem_taken : ∀ j, s.counters.count owner ≤ j → j < k → numberedName owner j ∈ s.taken

/-- A draw finds the least free number of its owner, marks its name as used and moves the
owner's counter past it, and no other counter. -/
theorem draw_spec (s : NameSupply) (owner : Text) :
    ∃ k, s.IsNext owner k ∧ (s.draw owner).1 = numberedName owner k ∧
      (s.draw owner).2.taken = numberedName owner k :: s.taken ∧
      (s.draw owner).2.counters.count owner = k + 1 ∧
      ∀ other, other ≠ owner →
        (s.draw owner).2.counters.count other = s.counters.count other := by
  obtain ⟨k, hLow, hHigh, hPassed, hFree, hName, hSelf, hOthers⟩ :=
    NameCounters.search_spec owner s.taken s.taken.length s.counters
  have hNew : numberedName owner k ∉ s.taken := by
    intro hTaken
    by_cases hInside : k < s.counters.count owner + s.taken.length
    · exact hFree hInside hTaken
    · have hAll : ∀ j, s.counters.count owner ≤ j →
          j < s.counters.count owner + (s.taken.length + 1) → numberedName owner j ∈ s.taken := by
        intro j hj hk
        by_cases hLast : j = k
        · rw [hLast]
          exact hTaken
        · exact hPassed j hj (by omega)
      have hTooMany := length_le_of_numberedNames_mem hAll
      omega
  refine ⟨k, ⟨hLow, hNew, hPassed⟩, hName, ?_, hSelf, hOthers⟩
  show (s.counters.search owner s.taken s.taken.length).1 :: s.taken = _
  rw [hName]

theorem draw_fst_notMem (s : NameSupply) (owner : Text) : (s.draw owner).1 ∉ s.taken := by
  obtain ⟨k, hNext, hName, -⟩ := s.draw_spec owner
  rw [hName]
  exact hNext.notMem_taken

theorem draw_snd_taken (s : NameSupply) (owner : Text) :
    (s.draw owner).2.taken = (s.draw owner).1 :: s.taken := rfl

theorem draw_fst_ne_nil (s : NameSupply) (owner : Text) : (s.draw owner).1 ≠ [] := by
  obtain ⟨k, -, hName, -⟩ := s.draw_spec owner
  rw [hName]
  exact numberedName_ne_nil owner k

/-! ## Many draws of one owner -/

/-- The names of a number of draws of one owner, and the supply after them. -/
def drawMany (s : NameSupply) (owner : Text) : Nat → List Text × NameSupply
  | 0 => ([], s)
  | n + 1 =>
    let first := s.draw owner
    let others := drawMany first.2 owner n
    (first.1 :: others.1, others.2)

@[simp] theorem drawMany_zero (s : NameSupply) (owner : Text) :
    s.drawMany owner 0 = ([], s) := rfl

theorem drawMany_succ (s : NameSupply) (owner : Text) (n : Nat) :
    s.drawMany owner (n + 1) =
      ((s.draw owner).1 :: ((s.draw owner).2.drawMany owner n).1,
        ((s.draw owner).2.drawMany owner n).2) := rfl

/-- Draws can be made in two portions. -/
theorem drawMany_add (owner : Text) (n : Nat) : ∀ (m : Nat) (s : NameSupply),
    s.drawMany owner (m + n) =
      ((s.drawMany owner m).1 ++ ((s.drawMany owner m).2.drawMany owner n).1,
        ((s.drawMany owner m).2.drawMany owner n).2) := by
  intro m
  induction m with
  | zero =>
      intro s
      rw [Nat.zero_add]
      rfl
  | succ m ih =>
      intro s
      rw [Nat.add_right_comm, drawMany_succ, ih (s.draw owner).2, drawMany_succ]
      rfl

@[simp] theorem length_drawMany (owner : Text) : ∀ (n : Nat) (s : NameSupply),
    (s.drawMany owner n).1.length = n := by
  intro n
  induction n with
  | zero => intro s; rfl
  | succ n ih =>
      intro s
      rw [drawMany_succ, List.length_cons, ih]

/-- The drawn names are in use afterwards, and nothing else is new. -/
theorem drawMany_taken (owner : Text) : ∀ (n : Nat) (s : NameSupply),
    (s.drawMany owner n).2.taken = (s.drawMany owner n).1.reverse ++ s.taken := by
  intro n
  induction n with
  | zero => intro s; rfl
  | succ n ih =>
      intro s
      rw [drawMany_succ]
      show ((s.draw owner).2.drawMany owner n).2.taken = _
      rw [ih, draw_snd_taken, List.reverse_cons, List.append_assoc]
      rfl

theorem mem_drawMany_taken {s : NameSupply} {owner : Text} {n : Nat} {name : Text} :
    name ∈ (s.drawMany owner n).2.taken ↔ name ∈ (s.drawMany owner n).1 ∨ name ∈ s.taken := by
  rw [drawMany_taken, List.mem_append, List.mem_reverse]

/-- Drawn names were not in use. -/
theorem drawMany_notMem (owner : Text) : ∀ (n : Nat) (s : NameSupply),
    ∀ name ∈ (s.drawMany owner n).1, name ∉ s.taken := by
  intro n
  induction n with
  | zero =>
      intro s name hName
      exact absurd hName List.not_mem_nil
  | succ n ih =>
      intro s name hName hTaken
      rw [drawMany_succ] at hName
      rcases List.mem_cons.1 hName with rfl | hLater
      · exact s.draw_fst_notMem owner hTaken
      · apply ih (s.draw owner).2 name hLater
        rw [draw_snd_taken]
        exact List.mem_cons_of_mem _ hTaken

/-- No name is drawn twice. -/
theorem drawMany_nodup (owner : Text) : ∀ (n : Nat) (s : NameSupply),
    (s.drawMany owner n).1.Nodup := by
  intro n
  induction n with
  | zero => intro s; exact List.nodup_nil
  | succ n ih =>
      intro s
      rw [drawMany_succ]
      refine List.nodup_cons.2 ⟨?_, ih (s.draw owner).2⟩
      intro hAgain
      apply drawMany_notMem owner n (s.draw owner).2 _ hAgain
      rw [draw_snd_taken]
      exact List.mem_cons_self

/-- The counters of other owners stay. -/
theorem drawMany_count_of_ne {owner other : Text} (hOther : other ≠ owner) :
    ∀ (n : Nat) (s : NameSupply),
      (s.drawMany owner n).2.counters.count other = s.counters.count other := by
  intro n
  induction n with
  | zero => intro s; rfl
  | succ n ih =>
      intro s
      obtain ⟨k, -, -, -, -, hOthers⟩ := s.draw_spec owner
      rw [drawMany_succ]
      show ((s.draw owner).2.drawMany owner n).2.counters.count other = _
      rw [ih, hOthers other hOther]

/-- Draws go through the numbers of their owner in increasing order. Afterwards the counter stands
behind them, and the names of all the numbers that it moved past are in use. -/
theorem exists_numbers_drawMany (owner : Text) : ∀ (n : Nat) (s : NameSupply),
    ∃ numbers : List Nat, (s.drawMany owner n).1 = numbers.map (numberedName owner) ∧
      numbers.Pairwise (· < ·) ∧
      s.counters.count owner ≤ (s.drawMany owner n).2.counters.count owner ∧
      (∀ k ∈ numbers, s.counters.count owner ≤ k ∧
        k < (s.drawMany owner n).2.counters.count owner) ∧
      ∀ j, s.counters.count owner ≤ j → j < (s.drawMany owner n).2.counters.count owner →
        numberedName owner j ∈ (s.drawMany owner n).2.taken := by
  intro n
  induction n with
  | zero =>
      intro s
      refine ⟨[], rfl, List.Pairwise.nil, Nat.le_refl _, fun k hk => absurd hk List.not_mem_nil, ?_⟩
      intro j hLow hHigh
      have hHigh : j < s.counters.count owner := hHigh
      omega
  | succ n ih =>
      intro s
      obtain ⟨first, hNext, hName, hTaken, hCount, -⟩ := s.draw_spec owner
      obtain ⟨numbers, hNames, hAscending, hMoved, hBounds, hPassed⟩ := ih (s.draw owner).2
      have hStart := hNext.count_le
      rw [hCount] at hMoved hBounds hPassed
      rw [drawMany_succ]
      refine ⟨first :: numbers, ?_, ?_, ?_, ?_, ?_⟩
      · rw [hName, hNames, List.map_cons]
      · apply List.pairwise_cons.2
        exact ⟨fun k hk => (hBounds k hk).1, hAscending⟩
      · show s.counters.count owner ≤ ((s.draw owner).2.drawMany owner n).2.counters.count owner
        omega
      · intro k hk
        rcases List.mem_cons.1 hk with rfl | hLater
        · exact ⟨hStart, hMoved⟩
        · obtain ⟨hLow, hHigh⟩ := hBounds k hLater
          exact ⟨by omega, hHigh⟩
      · intro j hLow hHigh
        by_cases hAfter : first + 1 ≤ j
        · exact hPassed j hAfter hHigh
        · -- Up to the first number drawn, names are in use from the first draw on.
          apply mem_drawMany_taken.2
          right
          rw [hTaken]
          by_cases hFirst : j = first
          · rw [hFirst]
            exact List.mem_cons_self
          · exact List.mem_cons_of_mem _ (hNext.mem_taken j hLow (by omega))

/-! ## Which names are drawn -/

/-- How many numbers below `k` are free for an owner, from a supply's counter on. -/
def freeBelow (s : NameSupply) (owner : Text) (k : Nat) : Nat :=
  (List.range k).countP fun j =>
    s.counters.count owner ≤ j ∧ numberedName owner j ∉ s.taken

theorem freeBelow_succ (s : NameSupply) (owner : Text) (k : Nat) :
    s.freeBelow owner (k + 1) = s.freeBelow owner k +
      if s.counters.count owner ≤ k ∧ numberedName owner k ∉ s.taken then 1 else 0 := by
  simp [freeBelow, List.range_succ]

/-- Below the least free number none is free. -/
theorem IsNext.freeBelow_eq_zero {s : NameSupply} {owner : Text} {k : Nat}
    (hNext : s.IsNext owner k) : s.freeBelow owner k = 0 := by
  rw [freeBelow, List.countP_eq_zero]
  intro j hj
  rw [List.mem_range] at hj
  simp only [decide_eq_true_eq, not_and, Classical.not_not]
  intro hLow
  exact hNext.mem_taken j hLow hj

/-- A draw uses up one free number, the least one. -/
theorem freeBelow_draw {s : NameSupply} {owner : Text} {first : Nat}
    (hNext : s.IsNext owner first)
    (hTaken : (s.draw owner).2.taken = numberedName owner first :: s.taken)
    (hCount : (s.draw owner).2.counters.count owner = first + 1) {k : Nat} (hk : first < k) :
    s.freeBelow owner k = (s.draw owner).2.freeBelow owner k + 1 := by
  -- Both sides gain the same numbers above `first`, so the difference stays what it is there.
  induction k with
  | zero => omega
  | succ k ih =>
      rw [freeBelow_succ, freeBelow_succ, hTaken, hCount]
      by_cases hLast : k = first
      · have hNone : (s.draw owner).2.freeBelow owner first = 0 := by
          rw [freeBelow, List.countP_eq_zero]
          intro j hj
          rw [List.mem_range] at hj
          simp only [hCount, decide_eq_true_eq, not_and]
          intro hLow
          omega
        rw [hLast, hNext.freeBelow_eq_zero, hNone,
          if_pos ⟨hNext.count_le, hNext.notMem_taken⟩, if_neg (by omega)]
      · have hBelow : first < k := by omega
        have hFree : numberedName owner k ∉ numberedName owner first :: s.taken ↔
            numberedName owner k ∉ s.taken := by
          simp [numberedName_inj, hLast]
        have hSame : (first + 1 ≤ k ∧ numberedName owner k ∉ numberedName owner first :: s.taken) ↔
            (s.counters.count owner ≤ k ∧ numberedName owner k ∉ s.taken) := by
          rw [hFree]
          have hLow := hNext.count_le
          constructor
          · rintro ⟨-, hNew⟩
            exact ⟨by omega, hNew⟩
          · rintro ⟨-, hNew⟩
            exact ⟨by omega, hNew⟩
        rw [ih hBelow]
        simp only [hSame]
        omega

/-- `n` draws of an owner hand out its first `n` free numbers. -/
theorem mem_drawMany_iff (owner : Text) : ∀ (n : Nat) (s : NameSupply) (name : Text),
    name ∈ (s.drawMany owner n).1 ↔
      ∃ k, name = numberedName owner k ∧ s.counters.count owner ≤ k ∧
        numberedName owner k ∉ s.taken ∧ s.freeBelow owner k < n := by
  intro n
  induction n with
  | zero =>
      intro s name
      simp
  | succ n ih =>
      intro s name
      obtain ⟨first, hNext, hName, hTaken, hCount, -⟩ := s.draw_spec owner
      rw [drawMany_succ, List.mem_cons, ih, hName, hTaken, hCount]
      constructor
      · rintro (rfl | ⟨k, rfl, hLow, hNew, hFew⟩)
        · refine ⟨first, rfl, hNext.count_le, hNext.notMem_taken, ?_⟩
          rw [hNext.freeBelow_eq_zero]
          omega
        · have hStart := hNext.count_le
          refine ⟨k, rfl, by omega, fun hOld => hNew (List.mem_cons_of_mem _ hOld), ?_⟩
          rw [freeBelow_draw hNext hTaken hCount (by omega)]
          omega
      · rintro ⟨k, rfl, hLow, hNew, hFew⟩
        rcases Nat.lt_trichotomy k first with hBefore | rfl | hAfter
        · exact absurd (hNext.mem_taken k hLow hBefore) hNew
        · exact Or.inl rfl
        · rw [freeBelow_draw hNext hTaken hCount hAfter] at hFew
          refine Or.inr ⟨k, rfl, by omega, ?_, by omega⟩
          intro hMem
          rcases List.mem_cons.1 hMem with hEq | hOld
          · have hSame := (numberedName_inj.1 hEq).2
            omega
          · exact hNew hOld

/-- The draws hand out the free numbers in increasing order. -/
theorem drawMany_eq_map_nth (s : NameSupply) (owner : Text) (n : Nat) :
    (s.drawMany owner n).1 = (List.range n).map fun i => numberedName owner
      (Nat.nth (fun k => s.counters.count owner ≤ k ∧ numberedName owner k ∉ s.taken) i) := by
  induction n with
  | zero => rfl
  | succ n ih =>
      -- The last draw is among the first `n + 1` free numbers and not among the first `n`.
      have hLast : (s.drawMany owner (n + 1)).1 =
          (s.drawMany owner n).1 ++ [((s.drawMany owner n).2.draw owner).1] := by
        rw [drawMany_add owner 1 n s]
        rfl
      have hNodup := drawMany_nodup owner (n + 1) s
      rw [hLast, List.nodup_append'] at hNodup
      have hMem : ((s.drawMany owner n).2.draw owner).1 ∈ (s.drawMany owner (n + 1)).1 := by
        rw [hLast]
        exact List.mem_append_right _ (List.mem_singleton.2 rfl)
      obtain ⟨k, hName, hLow, hFree, hBelow⟩ := (mem_drawMany_iff owner (n + 1) s _).1 hMem
      have hNotBelow : ¬ s.freeBelow owner k < n := fun hEarlier =>
        hNodup.2.2 ((mem_drawMany_iff owner n s _).2 ⟨k, hName, hLow, hFree, hEarlier⟩)
          (List.mem_singleton.2 rfl)
      have hCount : Nat.count (fun k => s.counters.count owner ≤ k ∧
          numberedName owner k ∉ s.taken) k = n := by
        show s.freeBelow owner k = n
        omega
      have hNth := Nat.nth_count (p := fun k => s.counters.count owner ≤ k ∧
        numberedName owner k ∉ s.taken) ⟨hLow, hFree⟩
      rw [hCount] at hNth
      rw [hLast, ih, hName, List.range_succ, List.map_append, List.map_singleton, hNth]

end NameSupply

end TreeTypes

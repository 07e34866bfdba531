import Mathlib.Data.List.Lex
import TreeTypes.Proofs.Grammar.WellFormed

/-!
# The order of texts

Names that a message lists stand in order, so that the message does not depend
on how they were met. The order is that of a dictionary over the numbers of the
code points. It is total because a code point is determined by its number, and
so a list of texts without repetitions has exactly one ascending arrangement.

## Main results

* `Text.le_iff` — the comparison decides the dictionary order.
* `Text.sorted_distinct_eq_iff` — what is sorted after dropping repetitions is
  the one ascending list with these members.
-/

namespace TreeTypes

/-- A code point is determined by its number: no character has that of a surrogate. -/
theorem CodePoint.val_injective : Function.Injective CodePoint.val := by
  intro p q h
  have hChar : ∀ c : Char, c.toNat < 0xD800 ∨ 0xDFFF < c.toNat := fun c => c.valid.imp_right (·.1)
  cases p with
  | char c =>
      cases q with
      | char d => exact congrArg char (Char.toNat_inj.1 h)
      | surrogate j =>
          have hRange := hChar c
          simp only [val] at h
          omega
  | surrogate i =>
      cases q with
      | char d =>
          have hRange := hChar d
          simp only [val] at h
          omega
      | surrogate j =>
          simp only [val] at h
          exact congrArg surrogate (Fin.ext (by omega))

namespace Text

/-- The text stands before the other in a dictionary, which compares code points. -/
def Precedes (s t : Text) : Prop := s.map CodePoint.val < t.map CodePoint.val

theorem Precedes.trans {s t u : Text} (h : Precedes s t) (hNext : Precedes t u) :
    Precedes s u := by
  unfold Precedes at *
  exact h.trans hNext

theorem Precedes.asymm {s t : Text} (h : Precedes s t) : ¬ Precedes t s := by
  unfold Precedes at *
  exact h.asymm

theorem Precedes.ne {s t : Text} (h : Precedes s t) : s ≠ t := by
  rintro rfl
  exact h.asymm h

/-- Of two different texts one stands before the other. -/
theorem precedes_or_eq_or_precedes (s t : Text) : Precedes s t ∨ s = t ∨ Precedes t s := by
  have hNumbers := lt_trichotomy (s.map CodePoint.val) (t.map CodePoint.val)
  rwa [List.map_inj_right fun _ _ h => CodePoint.val_injective h] at hNumbers

theorem le_iff {s t : Text} : le s t = true ↔ Precedes s t ∨ s = t := by
  induction s generalizing t with
  | nil => cases t <;> simp [le, Precedes]
  | cons p s ih =>
      cases t with
      | nil => simp [le, Precedes]
      | cons q t =>
          rw [le, Precedes, List.map_cons, List.map_cons, List.cons_lt_cons_iff]
          by_cases hSame : p = q
          · simp [hSame, ih, Precedes]
          · have hVal : p.val ≠ q.val := fun h => hSame (CodePoint.val_injective h)
            simp [hSame, hVal]

protected theorem le_trans (s t u : Text) (h : le s t = true) (hNext : le t u = true) :
    le s u = true := by
  rw [le_iff] at *
  obtain h | rfl := h
  · exact hNext.elim (fun hNext => .inl (h.trans hNext)) fun hSame => .inl (hSame ▸ h)
  · exact hNext

protected theorem le_total (s t : Text) : (le s t || le t s) = true := by
  rw [Bool.or_eq_true, le_iff, le_iff]
  obtain h | h | h := precedes_or_eq_or_precedes s t
  · exact .inl (.inl h)
  · exact .inl (.inr h)
  · exact .inr (.inl h)

/-- Sorting texts without repetitions makes each stand before all that follow it. -/
theorem ascending_sorted {texts : List Text} (h : texts.Nodup) :
    (sorted texts).Pairwise Precedes := by
  have hSorted : (sorted texts).Pairwise (le · ·) :=
    List.pairwise_mergeSort Text.le_trans Text.le_total texts
  have hNodup : (sorted texts).Nodup := (List.mergeSort_perm texts le).nodup_iff.2 h
  exact (hSorted.and hNodup).imp fun hPair => (le_iff.1 hPair.1).resolve_right hPair.2

/-- An ascending list is determined by its members. -/
theorem eq_of_ascending {texts others : List Text} (hTexts : texts.Pairwise Precedes)
    (hOthers : others.Pairwise Precedes) (h : ∀ t, t ∈ texts ↔ t ∈ others) : texts = others := by
  have hPerm : texts.Perm others :=
    (List.perm_ext_iff_of_nodup (hTexts.imp Precedes.ne) (hOthers.imp Precedes.ne)).2 h
  exact hPerm.eq_of_pairwise (fun _ _ _ _ hBefore hAfter => absurd hAfter hBefore.asymm)
    hTexts hOthers

/-- Without repetitions and sorted, texts are the one ascending list with the same members. -/
theorem sorted_distinct_eq_iff {texts names : List Text} :
    sorted (distinct texts) = names ↔
      names.Pairwise Precedes ∧ ∀ name, name ∈ names ↔ name ∈ texts := by
  have hAscending : (sorted (distinct texts)).Pairwise Precedes :=
    ascending_sorted (nodup_distinct texts)
  have hMem : ∀ name, name ∈ sorted (distinct texts) ↔ name ∈ texts := fun name => by
    rw [sorted, List.mem_mergeSort, mem_distinct]
  constructor
  · rintro rfl
    exact ⟨hAscending, hMem⟩
  · rintro ⟨hNames, hSame⟩
    exact eq_of_ascending hAscending hNames fun name => (hMem name).trans (hSame name).symm

end Text

end TreeTypes

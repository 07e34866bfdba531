import Mathlib.Data.List.Nodup
import TreeTypes.Json.Reader
import TreeTypes.Proofs.Expr.Format

/-!
# Keys of objects

The rules of a grammar have the keys of an object for their names, and that no
two rules share a name is true because no two members of an object share a
key. A text can repeat a key. The reader then replaces the earlier value, so
what it makes of the text has distinct keys in all its objects, at any depth.

## Main results

* `Datum.distinctKeys_insert` — setting a member keeps keys distinct.
* `Json.distinctKeys_of_read` — what is read has distinct keys.
-/

namespace TreeTypes

namespace Datum

/-! ## Distinct keys -/

theorem lookup_eq_none_iff {key : Text} {members : List (Text × Datum)} :
    lookup key members = none ↔ key ∉ members.map (·.1) := by
  induction members with
  | nil => simp [lookup]
  | cons member rest ih =>
      obtain ⟨k, value⟩ := member
      rw [lookup, List.map_cons, List.mem_cons, not_or, eq_comm (a := key)]
      by_cases hKey : k = key
      · simp [hKey]
      · rw [if_neg hKey, ih]
        simp [hKey]

theorem distinctKeysMembers_iff {members : List (Text × Datum)} :
    DistinctKeysMembers members ↔ ∀ member ∈ members, member.2.DistinctKeys := by
  induction members with
  | nil => simp [DistinctKeysMembers]
  | cons member rest ih => rw [DistinctKeysMembers, ih, List.forall_mem_cons]

/-- Distinct keys go down to the members. -/
theorem distinctKeys_of_lookup {members : List (Text × Datum)} (h : (object members).DistinctKeys)
    {key : Text} {value : Datum} (hValue : lookup key members = some value) :
    value.DistinctKeys := by
  obtain ⟨member, hMember, rfl⟩ := exists_mem_of_lookup hValue
  exact distinctKeysMembers_iff.1 h.2 member hMember

/-! ## Setting a member -/

/-- Setting a member leaves the keys as they are or adds one at the end. -/
theorem keys_insert (key : Text) (value : Datum) (members : List (Text × Datum)) :
    (insert key value members).map (·.1) =
      if key ∈ members.map (·.1) then members.map (·.1) else members.map (·.1) ++ [key] := by
  induction members with
  | nil => rfl
  | cons member rest ih =>
      obtain ⟨k, old⟩ := member
      rw [insert]
      by_cases hKey : k = key
      · simp [hKey]
      · rw [if_neg hKey, List.map_cons, List.map_cons, ih]
        have hOther : key ≠ k := fun hEq => hKey hEq.symm
        by_cases hRest : key ∈ rest.map (·.1)
        · rw [if_pos hRest, if_pos (List.mem_cons_of_mem _ hRest)]
        · rw [if_neg hRest, if_neg (by simpa [hOther] using hRest)]
          rfl

theorem distinctKeysMembers_insert {key : Text} {value : Datum} {members : List (Text × Datum)}
    (hValue : value.DistinctKeys) (h : DistinctKeysMembers members) :
    DistinctKeysMembers (insert key value members) := by
  induction members with
  | nil => exact ⟨hValue, h⟩
  | cons member rest ih =>
      obtain ⟨k, old⟩ := member
      rw [insert]
      split
      · exact ⟨hValue, h.2⟩
      · exact ⟨h.1, ih h.2⟩

/-- Setting a member keeps keys distinct. -/
theorem distinctKeys_insert {key : Text} {value : Datum} {members : List (Text × Datum)}
    (hValue : value.DistinctKeys) (h : (object members).DistinctKeys) :
    (object (insert key value members)).DistinctKeys := by
  refine ⟨?_, distinctKeysMembers_insert hValue h.2⟩
  rw [keys_insert]
  split
  · exact h.1
  · rename_i hNew
    rw [← List.concat_eq_append]
    exact h.1.concat hNew

end Datum

namespace Json

/-! ## Steps of the reader -/

theorem bind_eq_ok {α β : Type} {reading : Reading α} {next : α → Reading β} {b : β}
    (h : (reading >>= next) = .ok b) : ∃ a, reading = .ok a ∧ next a = .ok b := by
  cases reading with
  | ok a => exact ⟨a, rfl, h⟩
  | error s => exact absurd h (by simp [bind, Except.bind])

theorem distinctKeys_word? {text rest : Text} {datum : Datum}
    (h : word? text = some (datum, rest)) : datum.DistinctKeys := by
  obtain ⟨⟨word, found⟩, hWord, hHere⟩ := List.exists_of_findSome?_eq_some h
  have hAll : ∀ entry ∈ words, entry.2.DistinctKeys := by simp [words, Datum.DistinctKeys]
  simp only at hHere
  split at hHere
  · cases hHere
    exact hAll _ hWord
  · exact absurd hHere (by simp)

theorem distinctKeys_number {text rest : Text} {datum : Datum}
    (h : number text = .ok (datum, rest)) : datum.DistinctKeys := by
  unfold number at h
  simp only at h
  split at h
  · exact absurd h (by simp [stop])
  · split at h
    · split at h
      · exact absurd h (by simp)
      · cases h
        exact trivial
    · cases h
      exact trivial

/-- What is read with a bound has distinct keys, whichever of the three readers reads it. -/
structure ReadsDistinctKeys (fuel : Nat) : Prop where
  value : ∀ {text datum rest}, value fuel text = .ok (datum, rest) → datum.DistinctKeys
  items : ∀ {text list rest}, items fuel text = .ok (list, rest) → Datum.DistinctKeysItems list
  members : ∀ {before text list rest}, (Datum.object before).DistinctKeys →
    members fuel before text = .ok (list, rest) → (Datum.object list).DistinctKeys

namespace ReadsDistinctKeys

variable {fuel : Nat} (ih : ReadsDistinctKeys fuel) {text rest : Text}

include ih

theorem value_succ {datum : Datum} (h : Json.value (fuel + 1) text = .ok (datum, rest)) :
    datum.DistinctKeys := by
  have hEmpty : (Datum.object []).DistinctKeys := ⟨List.nodup_nil, trivial⟩
  rw [Json.value.eq_def] at h
  simp only at h
  split at h
  · obtain ⟨⟨t, after⟩, -, hEq⟩ := map_eq_ok_iff.1 h
    cases hEq
    exact trivial
  · split at h
    · cases h
      exact trivial
    · obtain ⟨⟨list, after⟩, hItems, hEq⟩ := map_eq_ok_iff.1 h
      cases hEq
      exact ih.items hItems
  · split at h
    · cases h
      exact hEmpty
    · obtain ⟨⟨list, after⟩, hMembers, hEq⟩ := map_eq_ok_iff.1 h
      cases hEq
      exact ih.members hEmpty hMembers
  · split at h
    · rename_i result hWord
      cases h
      exact distinctKeys_word? hWord
    · exact distinctKeys_number h

theorem items_succ {list : List Datum} (h : Json.items (fuel + 1) text = .ok (list, rest)) :
    Datum.DistinctKeysItems list := by
  rw [Json.items] at h
  obtain ⟨⟨item, after⟩, hItem, h⟩ := bind_eq_ok h
  have hFirst := ih.value hItem
  simp only at h
  split at h
  · cases h
    exact ⟨hFirst, trivial⟩
  · obtain ⟨⟨others, after⟩, hItems, h⟩ := bind_eq_ok h
    cases h
    exact ⟨hFirst, ih.items hItems⟩
  · exact absurd h (by simp [stop])

/-- Each member is set among those before it, so a repeated key stays one key. -/
theorem members_succ {before list : List (Text × Datum)}
    (hBefore : (Datum.object before).DistinctKeys)
    (h : Json.members (fuel + 1) before text = .ok (list, rest)) :
    (Datum.object list).DistinctKeys := by
  rw [Json.members.eq_def] at h
  simp only at h
  split at h
  · obtain ⟨⟨key, after⟩, -, h⟩ := bind_eq_ok h
    simp only at h
    split at h
    · obtain ⟨⟨datum, after⟩, hDatum, h⟩ := bind_eq_ok h
      have hAll : (Datum.object (Datum.insert key datum before)).DistinctKeys :=
        Datum.distinctKeys_insert (ih.value hDatum) hBefore
      simp only at h
      split at h
      · cases h
        exact hAll
      · exact ih.members hAll h
      · exact absurd h (by simp [stop])
    · exact absurd h (by simp [stop])
  · exact absurd h (by simp [stop])

end ReadsDistinctKeys

theorem readsDistinctKeys (fuel : Nat) : ReadsDistinctKeys fuel := by
  induction fuel with
  | zero =>
      constructor
      · intro text datum rest h
        exact absurd h (by simp [value, stop])
      · intro text list rest h
        exact absurd h (by simp [items, stop])
      · intro before text list rest _ h
        exact absurd h (by simp [members, stop])
  | succ fuel ih => exact ⟨ih.value_succ, ih.items_succ, ih.members_succ⟩

/-- What a text stands for has distinct keys in all its objects. -/
theorem distinctKeys_of_read {text : Text} {datum : Datum} (h : read text = .ok datum) :
    datum.DistinctKeys := by
  unfold read at h
  split at h
  · rename_i found hFound
    cases h
    unfold document at hFound
    split at hFound
    · exact absurd hFound (by simp [stop])
    · obtain ⟨⟨datum, after⟩, hDatum, hFound⟩ := bind_eq_ok hFound
      simp only at hFound
      split at hFound
      · cases hFound
        exact (readsDistinctKeys _).value hDatum
      · exact absurd hFound (by simp [stop])
  · exact absurd h (by simp)

end Json

end TreeTypes

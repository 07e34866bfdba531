import Mathlib.Data.List.Basic
import TreeTypes.FileTree

/-!
# Writing to a tree of files

What stands at a place is decided by the entries for that place and, if there
is none, by the entries below it. Putting a file somewhere could therefore
change what is seen elsewhere: above it directories could appear, and paths
could lead where they did not lead before. It does not, as long as the way to
the place leads through directories already. This is the case for every place
that a path means, since a path is followed through directories only.

A file is written in two steps: it is created, which empties a file that was
there, and then it is filled. After the first step the path still means the
same place, for it passes through directories and the new file is none; so the
two steps together put the bytes where the first one put nothing.

## Main definitions

* `FileTree.IsOpen`: the way to a place leads through directories.
* `FileTree.Writable`: a path means a place for a file.
* `FileTree.IsRewritten`: one file holds some bytes, and all else is the same.

## Main results

* `FileTree.find?_put_of_ne` — putting a file changes nothing elsewhere.
* `FileTree.write_eq_ok_iff` — when a file can be written.
* `FileTree.write_write` — writing twice is writing the second time.
-/

namespace TreeTypes

namespace FileTree

variable {tree after : FileTree} {place other : List Text} {path : FilePath} {bytes : List UInt8}

/-! ## Putting a file -/

theorem lookup_put_of_ne (h : other ≠ place) :
    (tree.put place bytes).entries.lookup other = tree.entries.lookup other := by
  have hSelf : (other == place) = false := by
    simpa using h
  rw [put, List.lookup_cons, hSelf]
  induction tree.entries with
  | nil => rfl
  | cons entry rest ih =>
      obtain ⟨key, node⟩ := entry
      by_cases hKey : key = place
      · have hOther : (other == key) = false := by
          simpa [hKey] using h
        rw [List.filter_cons_of_neg (by simpa using hKey), List.lookup_cons, hOther]
        exact ih
      · rw [List.filter_cons_of_pos (by simpa using hKey), List.lookup_cons, List.lookup_cons]
        cases other == key with
        | true => rfl
        | false => exact ih

/-- A place leads on to another one that it is a proper beginning of. -/
theorem leadsOn_iff : tree.leadsOn place = true ↔
    ∃ entry ∈ tree.entries, place <+: entry.1 ∧ place.length < entry.1.length := by
  simp [leadsOn]

/-- A file leads nowhere that its place did not lead to, but for the places on the way to it. -/
theorem leadsOn_put_of_not_prefix (h : ¬ (other <+: place ∧ other.length < place.length)) :
    (tree.put place bytes).leadsOn other = tree.leadsOn other := by
  rw [Bool.eq_iff_iff, leadsOn_iff, leadsOn_iff]
  constructor
  · rintro ⟨entry, hEntry, hBelow⟩
    rcases List.mem_cons.1 hEntry with rfl | hKept
    · exact absurd hBelow h
    · exact ⟨entry, (List.mem_filter.1 hKept).1, hBelow⟩
  · rintro ⟨entry, hEntry, hBelow⟩
    refine ⟨entry, List.mem_cons_of_mem _ (List.mem_filter.2 ⟨hEntry, ?_⟩), hBelow⟩
    have hElsewhere : entry.1 ≠ place := fun hPlace => h (hPlace ▸ hBelow)
    simpa using hElsewhere

theorem find?_put_self (h : isUpward place = false) :
    (tree.put place bytes).find? place = some (.file bytes) := by
  simp [find?, put, h]

/-- Directories stand at all places on the way to a place. -/
def IsOpen (tree : FileTree) (place : List Text) : Prop :=
  ∀ upper, upper <+: place → upper.length < place.length → tree.find? upper = some .directory

/-- A file that is put where the way is open changes nothing elsewhere. -/
theorem find?_put_of_ne (hOpen : tree.IsOpen place) (h : other ≠ place) :
    (tree.put place bytes).find? other = tree.find? other := by
  by_cases hUpward : isUpward other = true
  · rw [find?, find?, if_pos hUpward, if_pos hUpward]
  · by_cases hAbove : other <+: place ∧ other.length < place.length
    · -- On the way to the file there is a directory, and there was one before.
      have hBefore := hOpen other hAbove.1 hAbove.2
      have hLeads : (tree.put place bytes).leadsOn other = true :=
        leadsOn_iff.2 ⟨(place, .file bytes), List.mem_cons_self, hAbove⟩
      rw [hBefore]
      rw [find?, if_neg hUpward] at hBefore ⊢
      rw [lookup_put_of_ne h]
      cases hEntry : tree.entries.lookup other with
      | none => simp only [hLeads, if_true]
      | some node =>
          rw [hEntry] at hBefore
          exact hBefore
    · rw [find?, find?, if_neg hUpward, if_neg hUpward, lookup_put_of_ne h,
        leadsOn_put_of_not_prefix hAbove]

/-- Of two files at a place the second one counts. -/
theorem put_put (tree : FileTree) (place : List Text) (first second : List UInt8) :
    (tree.put place first).put place second = tree.put place second := by
  simp [put]

/-! ## Following a path -/

theorem isOpen_nil (tree : FileTree) : tree.IsOpen [] := by
  intro upper _ hLength
  exact absurd hLength (Nat.not_lt_zero _)

theorem IsOpen.append (h : tree.IsOpen place) (hHere : tree.find? place = some .directory)
    (part : Text) : tree.IsOpen (place ++ [part]) := by
  intro upper hUpper hLength
  rcases List.prefix_concat_iff.1 hUpper with rfl | hUpper
  · exact absurd hLength (Nat.lt_irrefl _)
  · by_cases hShorter : upper.length < place.length
    · exact h upper hUpper hShorter
    · have hSame : upper = place := hUpper.eq_of_length_le (by omega)
      rw [hSame]
      exact hHere

theorem IsOpen.dropLast (h : tree.IsOpen place) : tree.IsOpen place.dropLast := by
  intro upper hUpper hLength
  apply h upper (hUpper.trans (List.dropLast_prefix place))
  rw [List.length_dropLast] at hLength
  omega

/-- Following components takes back one or adds one, from a directory. -/
theorem follow_cons_eq_ok_iff {part : Text} {rest target : List Text} :
    tree.follow place (part :: rest) = .ok target ↔ tree.find? place = some .directory ∧
      tree.follow (if part = ".." ∧ !isUpward place then place.dropLast else place ++ [part]) rest =
        .ok target := by
  rw [follow]
  cases tree.find? place with
  | none => simp
  | some node => cases node <;> simp

/-- The way to what a path means leads through directories. -/
theorem isOpen_of_follow {parts : List Text} : ∀ {place target : List Text},
    tree.IsOpen place → tree.follow place parts = .ok target → tree.IsOpen target := by
  induction parts with
  | nil =>
      intro place target hOpen h
      rw [follow, Except.ok.injEq] at h
      rw [← h]
      exact hOpen
  | cons part rest ih =>
      intro place target hOpen h
      obtain ⟨hHere, hRest⟩ := follow_cons_eq_ok_iff.1 h
      refine ih ?_ hRest
      split
      · exact hOpen.dropLast
      · exact hOpen.append hHere part

/-- Where the same directories are, the same paths lead on. -/
theorem follow_of_directories (hSame : ∀ place, tree.find? place = some .directory →
      after.find? place = some .directory) {parts : List Text} : ∀ {place target : List Text},
    tree.follow place parts = .ok target → after.follow place parts = .ok target := by
  induction parts with
  | nil =>
      intro place target h
      exact h
  | cons part rest ih =>
      intro place target h
      obtain ⟨hHere, hRest⟩ := follow_cons_eq_ok_iff.1 h
      exact follow_cons_eq_ok_iff.2 ⟨hSame place hHere, ih hRest⟩

theorem place_eq_ok_iff : tree.place path = .ok place ↔
    (path.root = [] ∨ path.parts = []) ∧ tree.follow [] path.parts = .ok place := by
  rw [FileTree.place]
  by_cases hAbsolute : path.root ≠ [] ∧ path.parts ≠ []
  · rw [if_pos hAbsolute]
    simp [hAbsolute.1, hAbsolute.2]
  · rw [if_neg hAbsolute]
    have hRelative : path.root = [] ∨ path.parts = [] := by
      by_cases hRoot : path.root = []
      · exact Or.inl hRoot
      · exact Or.inr (Classical.not_not.1 fun hParts => hAbsolute ⟨hRoot, hParts⟩)
    simp [hRelative]

/-! ## Writing a file -/

/-- The path means a place where a file is or can be. -/
def Writable (tree : FileTree) (path : FilePath) : Prop :=
  ∃ place, tree.place path = .ok place ∧ tree.find? place ≠ some .directory

/-- The file that a path means holds some bytes, and everything else is as it was. -/
def IsRewritten (before : FileTree) (path : FilePath) (bytes : List UInt8) (after : FileTree) :
    Prop :=
  ∃ place, before.place path = .ok place ∧ after.find? place = some (.file bytes) ∧
    ∀ other, other ≠ place → after.find? other = before.find? other

theorem write_eq_ok_iff : tree.write path bytes = .ok after ↔ ∃ place, tree.place path = .ok place ∧
    tree.find? place ≠ some .directory ∧ after = tree.put place bytes := by
  rw [write]
  cases hPlace : tree.place path with
  | error fault => simp
  | ok place =>
      cases hNode : tree.find? place with
      | none => simp [hNode, eq_comm]
      | some node => cases node <;> simp [hNode, eq_comm]

theorem exists_write_iff : (∃ after, tree.write path bytes = .ok after) ↔ tree.Writable path := by
  simp only [write_eq_ok_iff, Writable]
  constructor
  · rintro ⟨after, place, hPlace, hNode, -⟩
    exact ⟨place, hPlace, hNode⟩
  · rintro ⟨place, hPlace, hNode⟩
    exact ⟨_, place, hPlace, hNode, rfl⟩

theorem not_writable_of_write {fault : FileFault} (h : tree.write path bytes = .error fault) :
    ¬ tree.Writable path := by
  intro hWritable
  obtain ⟨after, hAfter⟩ : ∃ after, tree.write path bytes = .ok after := exists_write_iff.2 hWritable
  rw [h] at hAfter
  cases hAfter

theorem isOpen_of_place (h : tree.place path = .ok place) : tree.IsOpen place :=
  isOpen_of_follow (isOpen_nil tree) (place_eq_ok_iff.1 h).2

/-- Writing changes the file that the path means, and nothing else. -/
theorem isRewritten_of_write (h : tree.write path bytes = .ok after) :
    tree.IsRewritten path bytes after := by
  obtain ⟨place, hPlace, hNode, rfl⟩ := write_eq_ok_iff.1 h
  have hLow : isUpward place = false := by
    apply Bool.eq_false_iff.2
    intro hUpward
    exact hNode (by rw [find?, if_pos hUpward])
  exact ⟨place, hPlace, find?_put_self hLow,
    fun other hOther => find?_put_of_ne (isOpen_of_place hPlace) hOther⟩

/-- A file that has just been written can be written again, and nothing is left of the first
time. -/
theorem write_write {first second : List UInt8} (h : tree.write path first = .ok after) :
    after.write path second = tree.write path second := by
  obtain ⟨place, hPlace, hNode, hPut⟩ := write_eq_ok_iff.1 h
  obtain ⟨target, hTarget, hFile, hElsewhere⟩ := isRewritten_of_write h
  rw [hPlace, Except.ok.injEq] at hTarget
  subst hTarget
  have hDirectories : ∀ place', tree.find? place' = some .directory →
      after.find? place' = some .directory := by
    intro place' hDirectory
    have hOther : place' ≠ place := by
      intro hEq
      rw [hEq] at hDirectory
      exact hNode hDirectory
    rw [hElsewhere place' hOther]
    exact hDirectory
  have hAgain : after.place path = .ok place := by
    obtain ⟨hRelative, hFollow⟩ := place_eq_ok_iff.1 hPlace
    exact place_eq_ok_iff.2 ⟨hRelative, follow_of_directories hDirectories hFollow⟩
  have hSecond : after.write path second = .ok (after.put place second) := by
    apply write_eq_ok_iff.2
    refine ⟨place, hAgain, ?_, rfl⟩
    rw [hFile]
    simp
  rw [hSecond, hPut, put_put]
  exact (write_eq_ok_iff.2 ⟨place, hPlace, hNode, rfl⟩).symm

end FileTree

end TreeTypes

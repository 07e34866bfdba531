import TreeTypes.Text.Basic

/-!
# Fresh names

A rule that hoisting makes is named after the rule it comes from: the owner's
name, an underscore and a number. Every owner has a counter of its own, which
starts at zero and only moves forward, so one set of counters never gives the
same name twice. That names of different owners differ too, `a_0` with the
number 1 and `a` with the number `0_1`, is because a number has no underscore:
a name splits at its last one.

A fresh name may still be in use already, by a declared rule. A **supply**
joins the counters with the names in use and draws until it finds a name that
is not among them. Successive draws differ, so as many draws as there are
names in use, and one more, are enough.

## Main definitions

* `numberedName`: the name of an owner with a number.
* `NameCounters`, with `count` as its view, and `NameCounters.fresh`.
* `NameSupply`, `NameSupply.draw`.
-/

namespace TreeTypes

/-- The name of an owner with a number. -/
def numberedName (owner : Text) (k : Nat) : Text :=
  Text.concat [owner, "_", Text.numeral k]

/-- For each owner the number that its next name gets; an owner not listed has the number zero. -/
structure NameCounters where
  entries : List (Text × Nat) := []
  deriving DecidableEq

namespace NameCounters

/-- The number that the next name of an owner gets. -/
def count (c : NameCounters) (owner : Text) : Nat :=
  match c.entries.find? (·.1 = owner) with
  | some entry => entry.2
  | none => 0

/-- The counters after one more name of an owner. -/
def advance (c : NameCounters) (owner : Text) : NameCounters :=
  ⟨(owner, c.count owner + 1) :: c.entries.filter (·.1 ≠ owner)⟩

/-- The next name of an owner. -/
def fresh (c : NameCounters) (owner : Text) : Text × NameCounters :=
  (numberedName owner (c.count owner), c.advance owner)

/-- The names of owners one after another. -/
def freshAll (c : NameCounters) : List Text → List Text × NameCounters
  | [] => ([], c)
  | owner :: rest =>
    let (name, c) := c.fresh owner
    let (names, c) := freshAll c rest
    (name :: names, c)

/-- Advancing moves the owner's counter. -/
@[simp] theorem count_advance_self (c : NameCounters) (owner : Text) :
    (c.advance owner).count owner = c.count owner + 1 := by
  simp [advance, count]

/-- Advancing leaves the other counters alone. -/
theorem count_advance_of_ne (c : NameCounters) {owner other : Text} (h : other ≠ owner) :
    (c.advance owner).count other = c.count other := by
  have hFind : (c.entries.filter (·.1 ≠ owner)).find? (·.1 = other) =
      c.entries.find? (·.1 = other) := by
    rw [List.find?_filter]
    refine congrArg (List.find? · c.entries) (funext fun entry => ?_)
    by_cases hOther : entry.1 = other <;> simp [hOther, h]
  simp only [advance, count]
  rw [List.find?_cons_of_neg (by simpa using h.symm), hFind]

/--
Draws names of an owner until one is not in use. `draws` bounds the names that
are passed over.
-/
def search (owner : Text) (taken : List Text) : (draws : Nat) → NameCounters → Text × NameCounters
  | 0, c => c.fresh owner
  | draws + 1, c =>
    let (name, c) := c.fresh owner
    if name ∈ taken then search owner taken draws c else (name, c)

end NameCounters

/-- The counters, and the names that are in use. -/
structure NameSupply where
  counters : NameCounters
  taken : List Text

/-- The next name of an owner that is not in use; it is in use from then on. -/
def NameSupply.draw (s : NameSupply) (owner : Text) : Text × NameSupply :=
  let (name, counters) := s.counters.search owner s.taken s.taken.length
  (name, ⟨counters, name :: s.taken⟩)

end TreeTypes

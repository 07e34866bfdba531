import TreeTypes.References

/-!
# The order of declarations

Declarations are written from the root outwards: in pre-order of a depth-first
traversal of the references, successors in order of first mention, each rule
once. Rules that the root does not reach follow in declaration order, and the
extras come last, in their order.

The traversal keeps a stack of names that are still to be visited. A name may
stand on it several times; it counts when it is met first. A node puts its
successors on the stack once, so the nodes and edges that are left, together
with the stack, become fewer with every step.

## Main definitions

* `References.visit`: the traversal.
* `Grammar.reached`, `Grammar.unreached`, `Grammar.emissionOrder`.
-/

namespace TreeTypes

namespace References

/-- The nodes that are not among the visited names. -/
def unvisited (refs : References) (visited : List Text) : List Text :=
  refs.nodes.filter (· ∉ visited)

/-- The weights of some names together. -/
def weigh (weight : Text → Nat) : List Text → Nat
  | [] => 0
  | name :: rest => weight name + weigh weight rest

/-- The number of unvisited nodes and of the edges that leave them. -/
def remaining (refs : References) (visited : List Text) : Nat :=
  weigh (fun node => 1 + (refs.successors node).length) (refs.unvisited visited)

/-- Leaving out members makes no weight larger. -/
theorem weigh_filter_le (weight : Text → Nat) (keep : Text → Bool) (names : List Text) :
    weigh weight (names.filter keep) ≤ weigh weight names := by
  induction names with
  | nil => simp [weigh]
  | cons name rest ih =>
    rw [List.filter_cons]
    split <;> simp only [weigh] <;> omega

/-- Leaving out one member makes the whole lighter by its weight at least. -/
theorem weigh_filter_ne_add_le (weight : Text → Nat) {name : Text} {names : List Text}
    (h : name ∈ names) :
    weigh weight (names.filter (· ≠ name)) + weight name ≤ weigh weight names := by
  induction names with
  | nil => simp at h
  | cons head rest ih =>
    by_cases hHead : head = name
    · have hRest := weigh_filter_le weight (· ≠ name) rest
      rw [List.filter_cons_of_neg (by simpa using hHead), hHead, weigh]
      omega
    · have hRest := ih ((List.mem_cons.1 h).resolve_left fun hEq => hHead hEq.symm)
      rw [List.filter_cons_of_pos (by simpa using hHead)]
      simp only [weigh]
      omega

/-- A name that is visited next is no longer among the unvisited nodes. -/
theorem unvisited_append (refs : References) (visited : List Text) (name : Text) :
    refs.unvisited (visited ++ [name]) = (refs.unvisited visited).filter (· ≠ name) := by
  simp only [unvisited, List.filter_filter]
  congr 1
  funext node
  by_cases h : node = name <;> simp [h]

/-- Visiting a node takes it and its edges off what remains. -/
theorem remaining_append_add_le (refs : References) {visited : List Text} {name : Text}
    (hNode : name ∈ refs.nodes) (hNew : name ∉ visited) :
    refs.remaining (visited ++ [name]) + (1 + (refs.successors name).length) ≤
      refs.remaining visited := by
  rw [remaining, unvisited_append]
  exact weigh_filter_ne_add_le _ (by simp [unvisited, hNode, hNew])

/-- Visiting a name adds nothing to what remains. -/
theorem remaining_append_le (refs : References) (visited : List Text) (name : Text) :
    refs.remaining (visited ++ [name]) ≤ refs.remaining visited := by
  rw [remaining, unvisited_append]
  exact weigh_filter_le _ _ _

/-- What is no node has no successors. -/
theorem successors_eq_nil (refs : References) {name : Text} (h : name ∉ refs.nodes) :
    refs.successors name = [] := by
  have hNone : refs.entries.find? (·.1 = name) = none := by
    rw [List.find?_eq_none]
    intro entry hEntry hName
    exact h (List.mem_map.2 ⟨entry, hEntry, by simpa using hName⟩)
  simp [successors, hNone]

/--
Visits the names on the stack, the first one first, and before the others what
it leads to. `visited` holds the names visited so far, in order.
-/
def visit (refs : References) (stack visited : List Text) : List Text :=
  match stack with
  | [] => visited
  | name :: rest =>
    if name ∈ visited then refs.visit rest visited
    else
      let extended := visited ++ [name]
      refs.visit ((refs.successors name).filter (· ∉ extended) ++ rest) extended
  termination_by refs.remaining visited + stack.length
  decreasing_by
    · simp
    · rename_i hNew
      by_cases hNode : name ∈ refs.nodes
      · have hLess := refs.remaining_append_add_le hNode hNew
        have hPushed := List.length_filter_le (· ∉ visited ++ [name]) (refs.successors name)
        simp only [List.length_append, List.length_cons]
        omega
      · have hLess := refs.remaining_append_le visited name
        rw [refs.successors_eq_nil hNode]
        simp only [List.filter_nil, List.nil_append, List.length_cons]
        omega

end References

namespace Grammar

/-- The names that the root leads to, in the order of the traversal. -/
def reached (g : Grammar) (refs : References) : List Text :=
  refs.visit (if g.root ∈ refs.nodes then [g.root] else []) []

/-- The declared rules that the root does not lead to. -/
def unreached (g : Grammar) (refs : References) : List Text :=
  let reached := g.reached refs
  (g.declared.map Rule.name).filter (· ∉ reached)

/-- The order in which declarations are written. -/
def emissionOrder (g : Grammar) (refs : References) : List Text :=
  g.reached refs ++ g.unreached refs ++ g.extras

/-- The records of the ordering. -/
def orderLog (g : Grammar) (refs : References) : Log :=
  let unreached := g.unreached refs
  let order := g.emissionOrder refs
  let strays : Log :=
    if unreached.isEmpty then []
    else [⟨.debug, .ordering, Text.concat ["Rules unreachable from '", g.root, "': ",
      Text.join ", " unreached]⟩]
  strays ++ [⟨.info, .ordering, Text.concat ["Emission order: ", Text.numeral order.length,
    " rule(s), ", Text.numeral unreached.length, " unreachable, ",
    Text.numeral g.extras.length, " extra"]⟩]

end Grammar

end TreeTypes

import Mathlib.Data.List.Nodup
import Mathlib.Logic.Function.Iterate
import TreeTypes.Proofs.Emission.Reachability

/-!
# The traversal as a recursion

The order of declarations is described as a pre-order: a rule, then what each
of its references leads to in turn, everything that came earlier left out. The
program does not recurse. It runs a loop on a stack, which may hold a name
several times, and which is filtered twice, when names are pushed and again
when they are popped.

`References.preorder` is the recursion. Between it and the loop stands one
observation: a stack can be worked off in two portions, so what is pushed for
a name is finished before anything that lay below it is touched, and that is
the call that the recursion makes.

`References.turn` is a single turn of the loop. A turn may push more than it
pops, but what it pushes are edges that leave the stock of unvisited nodes for
good. Stack and stock together become smaller with every turn, whatever cycles
there are.

## Main results

* `References.visit_eq_preorder` — the loop finds what the recursion finds.
* `References.exists_turns` — the loop comes to an end.
* `Grammar.emissionOrder_eq_preorder` — the order of declarations.
-/

namespace TreeTypes

namespace References

variable (refs : References)

/-! ## The recursion -/

/--
What the names lead to, in pre-order: for each name that is not visited yet,
the name itself and what its successors lead to, and then what the names after
it lead to. Whatever is found counts as visited from then on.
-/
def preorder (refs : References) (names visited : List Text) : List Text :=
  match names with
  | [] => []
  | name :: rest =>
    if name ∈ visited then refs.preorder rest visited
    else
      let found := name :: refs.preorder (refs.successors name) (visited ++ [name])
      found ++ refs.preorder rest (visited ++ found)
  termination_by ((refs.unvisited visited).length, names.length)
  decreasing_by
    · exact Prod.Lex.right _ (by simp)
    · -- A node leaves the unvisited ones; what is no node has no successors.
      rename_i hNew
      by_cases hNode : name ∈ refs.nodes
      · exact Prod.Lex.left _ _ (refs.length_unvisited_append_lt hNode hNew)
      · rw [refs.successors_eq_nil hNode]
        exact Prod.Lex.right' _ (refs.length_unvisited_append_le visited [name]) (by simp)
    · exact Prod.Lex.right' _ (refs.length_unvisited_append_le visited found) (by simp)

theorem preorder_nil (visited : List Text) : refs.preorder [] visited = [] := by
  rw [preorder]

variable {refs}

theorem preorder_seen {name : Text} {visited : List Text} (h : name ∈ visited) (rest : List Text) :
    refs.preorder (name :: rest) visited = refs.preorder rest visited := by
  rw [preorder, if_pos h]

theorem preorder_new {name : Text} {visited : List Text} (h : name ∉ visited)
    (rest : List Text) :
    refs.preorder (name :: rest) visited =
      name :: refs.preorder (refs.successors name) (visited ++ [name]) ++
        refs.preorder rest
          (visited ++ name :: refs.preorder (refs.successors name) (visited ++ [name])) := by
  rw [preorder, if_neg h]

variable (refs)

/-- The loop finds what the recursion finds, in the same order. -/
theorem visit_eq_preorder (names visited : List Text) :
    refs.visit names visited = visited ++ refs.preorder names visited := by
  induction names, visited using preorder.induct refs with
  | case1 visited => rw [visit_nil, preorder_nil, List.append_nil]
  | case2 visited name rest hSeen ih => rw [visit_seen hSeen, preorder_seen hSeen, ih]
  | case3 visited name rest hNew found ihInner ihRest =>
      -- The part of the stack that was pushed for the name is worked off first.
      have hInner : refs.visit (refs.successors name) (visited ++ [name]) = visited ++ found := by
        rw [ihInner, List.append_assoc]
        rfl
      rw [visit_new hNew, visit_append, refs.visit_filter fun _ hOld => hOld, hInner, ihRest,
        preorder_new hNew, List.append_assoc]

/-! ## Turns of the loop -/

/-- One turn of the loop, on the stack and the names visited so far. -/
def turn : List Text × List Text → List Text × List Text
  | ([], visited) => ([], visited)
  | (name :: rest, visited) =>
    if name ∈ visited then (rest, visited)
    else
      ((refs.successors name).filter (· ∉ visited ++ [name]) ++ rest, visited ++ [name])

/-- What is left to do: the names on the stack, the unvisited nodes and the edges from those. -/
def left (state : List Text × List Text) : Nat := refs.remaining state.2 + state.1.length

/-- A turn does not change what the loop will give. -/
theorem visit_turn (state : List Text × List Text) :
    refs.visit (refs.turn state).1 (refs.turn state).2 = refs.visit state.1 state.2 := by
  obtain ⟨stack, visited⟩ := state
  cases stack with
  | nil => rfl
  | cons name rest =>
      by_cases hSeen : name ∈ visited
      · rw [turn, if_pos hSeen, visit_seen hSeen]
      · rw [turn, if_neg hSeen, visit_new hSeen]

/-- A turn leaves less to do, as long as there is something on the stack. -/
theorem left_turn_lt {state : List Text × List Text} (h : state.1 ≠ []) :
    refs.left (refs.turn state) < refs.left state := by
  obtain ⟨stack, visited⟩ := state
  cases stack with
  | nil => exact absurd rfl h
  | cons name rest =>
      by_cases hSeen : name ∈ visited
      · simp [turn, if_pos hSeen, left]
      · rw [turn, if_neg hSeen]
        simp only [left, List.length_append, List.length_cons]
        by_cases hNode : name ∈ refs.nodes
        · have hLess := refs.remaining_append_add_le hNode hSeen
          have hPushed := List.length_filter_le (· ∉ visited ++ [name]) (refs.successors name)
          omega
        · have hLess := refs.remaining_append_le visited name
          rw [refs.successors_eq_nil hNode, List.filter_nil, List.length_nil]
          omega

/-- After a bounded number of turns the stack is empty, and all that the loop gives is visited. -/
theorem exists_turns (state : List Text × List Text) :
    ∃ turns ≤ refs.left state, refs.turn^[turns] state = ([], refs.visit state.1 state.2) := by
  induction hLeft : refs.left state using Nat.strongRecOn generalizing state with
  | _ bound ih =>
      by_cases hStack : state.1 = []
      · refine ⟨0, Nat.zero_le _, ?_⟩
        rw [Function.iterate_zero_apply, hStack, visit_nil, ← hStack]
      · have hLess := refs.left_turn_lt hStack
        obtain ⟨turns, hTurns, hEnd⟩ := ih _ (hLeft ▸ hLess) (refs.turn state) rfl
        refine ⟨turns + 1, by omega, ?_⟩
        rw [Function.iterate_succ_apply, hEnd, visit_turn]

end References

/-! ## The order of declarations -/

namespace Grammar

variable {g : Grammar} {refs : References}

theorem root_mem_nodes_iff (hWell : g.WellFormed) (hRefs : References.ofGrammar g = .ok refs) :
    g.root ∈ refs.nodes ↔ g.root ∉ g.extras := by
  rw [References.mem_nodes_of_ofGrammar hWell hRefs, hWell.mem_declared_names]
  exact and_iff_right hWell.root_mem

/-- From a root that is no extra only declared rules are reached. -/
theorem Reaches.mem_declared (hWell : g.WellFormed) (hCoherent : g.Coherent)
    (hRoot : g.root ∉ g.extras) {name : Text} (h : g.Reaches name) :
    name ∈ g.declared.map Rule.name := by
  cases h with
  | root => exact hWell.mem_declared_names.2 ⟨hWell.root_mem, hRoot⟩
  | mention hRule _ hTarget => exact hCoherent.mem_declared_of_mem_symbols hRule hTarget

/-- The order is that of the rules, rearranged. -/
theorem emissionOrder_perm_order (hWell : g.WellFormed)
    (hRefs : References.ofGrammar g = .ok refs) : (g.emissionOrder refs).Perm g.order :=
  (List.perm_ext_iff_of_nodup (nodup_emissionOrder hWell hRefs) hWell.order_nodup).2 fun _ =>
    mem_emissionOrder_iff hWell hRefs

/-- The order of declarations, for an accepted grammar. First come the names that the loop has
visited when its stack is empty, which happens after a bounded number of turns. They are the
pre-order of the recursion from the root, whose successors are the names in a body, each at its
first mention, and exactly the rules that the root leads to; a root that is an extra leads to none.
The other declared rules follow in declaration order, and then the extras. Every rule is listed
once. -/
theorem emissionOrder_eq_preorder {name : Text} {rules : List Rule} {root : Option Text}
    {extras : List Text} {g : Grammar} (hBuilt : ofRules name rules root extras = .ok g)
    {refs : References} (hRefs : References.ofGrammar g = .ok refs) :
    ∃ reached unreached,
      g.emissionOrder refs = reached ++ unreached ++ g.extras ∧
      (∃ turns ≤ refs.remaining [] + 1,
        refs.turn^[turns] (if g.root ∈ refs.nodes then [g.root] else [], []) = ([], reached)) ∧
      (∀ rule ∈ g.declared, refs.successors rule.name = Text.distinct rule.body.symbols) ∧
      (g.root ∈ g.extras → reached = []) ∧
      (g.root ∉ g.extras → reached = refs.preorder [g.root] [] ∧
        ∀ name, name ∈ reached ↔ g.Reaches name) ∧
      unreached = (g.declared.map Rule.name).filter (· ∉ reached) ∧
      (g.emissionOrder refs).Perm g.order ∧ (g.emissionOrder refs).Nodup := by
  have hWell := wellFormed_of_ofRules hBuilt
  have hCoherent := (References.ofGrammar_eq_ok_iff hWell).1 ⟨refs, hRefs⟩
  have hNode := root_mem_nodes_iff hWell hRefs
  refine ⟨g.reached refs, g.unreached refs, rfl, ?_, ?_, ?_, ?_, rfl,
    emissionOrder_perm_order hWell hRefs, nodup_emissionOrder hWell hRefs⟩
  · obtain ⟨turns, hTurns, hEnd⟩ :=
      refs.exists_turns (if g.root ∈ refs.nodes then [g.root] else [], [])
    refine ⟨turns, Nat.le_trans hTurns ?_, hEnd⟩
    simp only [References.left]
    split <;> simp
  · intro rule hRule
    rw [References.successors_of_ofGrammar hWell hRefs, mentioned_eq_symbols hWell hRule]
  · intro hExtra
    rw [reached, if_neg (fun hMem => hNode.1 hMem hExtra), References.visit_nil]
  · intro hOwn
    constructor
    · rw [reached, if_pos (hNode.2 hOwn), References.visit_eq_preorder, List.nil_append]
    · intro name
      rw [mem_reached_iff hWell hRefs]
      exact and_iff_right_of_imp (Reaches.mem_declared hWell hCoherent hOwn)

/-- The order of `sample`: the root leads to itself and to the second rule, the third is not
reached, and the extra comes last. -/
theorem emissionOrder_eq_preorder_sample :
    ofRules "sample" sample.rules none ["comment"] = .ok sample ∧
      ∃ refs, References.ofGrammar sample = .ok refs ∧
        sample.emissionOrder refs = ["program", "item", "stray", "comment"] ∧
        (∃ unreached, sample.emissionOrder refs =
          refs.preorder [sample.root] [] ++ unreached ++ sample.extras) ∧
        (sample.emissionOrder refs).Perm sample.order := by
  have hRefs : References.ofGrammar sample = .ok (References.collect sample).graph := by
    decide +kernel
  obtain ⟨reached, unreached, hOrder, -, -, -, hReached, -, hPerm, -⟩ :=
    emissionOrder_eq_preorder ofRules_sample hRefs
  have hOwn : sample.root ∉ sample.extras := by decide
  rw [(hReached hOwn).1] at hOrder
  exact ⟨ofRules_sample, _, hRefs, by decide +kernel, ⟨unreached, hOrder⟩, hPerm⟩

end Grammar

end TreeTypes

import TreeTypes.References
import TreeTypes.Proofs.Grammar.WellFormed

/-!
# Growing a graph

A graph is grown from the empty one by additions of nodes and edges, in any
order and with any repetitions. An edge brings its source and then its target
along, so there are three ways for a name to become a node, and its successors
may come long after it or not at all.

What a single addition does is nevertheless simple. It appends to the nodes the
names that it mentions, and to the successors of its source its target, as far
as they are new there. So after a run of additions the nodes are the names that
were mentioned, and the successors of a name the targets of its edges, each at
its first mention (`nodes_addAll`, `successors_addAll`). Since every node is
kept once, these two views determine the whole graph (`eq_of_views`), and an
addition that was made before changes neither of them.

## Main definitions

* `References.Addition`, with `References.add` and `References.addAll`.
* `References.IsGrownBy` — a graph is what some additions make of the empty one.

## Main results

* `References.isGrownBy_addAll` — this holds after all additions.
-/

namespace TreeTypes

namespace References

variable {refs : References} {seen : List Text}

/-! ## A single node or edge -/

/-- A node takes its place after all nodes that were mentioned before. -/
theorem nodes_addNode (h : refs.nodes = Text.distinct seen) (node : Text) :
    (refs.addNode node).nodes = Text.distinct (seen ++ [node]) := by
  rw [Text.distinct_append_singleton, ← h]
  unfold addNode
  by_cases hNode : node ∈ seen
  · have hOld : node ∈ refs.nodes := by
      rw [h]
      exact Text.mem_distinct.2 hNode
    rw [if_pos hOld, if_pos hNode]
  · have hNew : node ∉ refs.nodes := by
      rw [h]
      exact fun hIn => hNode (Text.mem_distinct.1 hIn)
    rw [if_neg hNew, if_neg hNode]
    simp [nodes]

theorem mem_nodes_addNode_self (refs : References) (node : Text) :
    node ∈ (refs.addNode node).nodes := by
  unfold addNode
  split
  · assumption
  · simp [nodes]

/-- A new node has no successors. -/
theorem successors_addNode (refs : References) (node name : Text) :
    (refs.addNode node).successors name = refs.successors name := by
  unfold addNode
  split
  · rfl
  · unfold successors
    rw [List.find?_append]
    cases hFind : refs.entries.find? (·.1 = name) with
    | some entry => rfl
    | none =>
        by_cases hName : node = name <;> simp [hName]

theorem nodes_addSuccessor (refs : References) (source target : Text) :
    (refs.addSuccessor source target).nodes = refs.nodes := by
  unfold nodes addSuccessor
  rw [List.map_map]
  refine List.map_congr_left fun entry _ => ?_
  show (if _ then _ else _ : Text × List Text).1 = entry.1
  split <;> rfl

/-- A node's successors after one more of them. -/
theorem successors_addSuccessor {source : Text} (h : source ∈ refs.nodes) (target name : Text) :
    (refs.addSuccessor source target).successors name =
      if name = source ∧ target ∉ refs.successors name then refs.successors name ++ [target]
      else refs.successors name := by
  unfold successors addSuccessor
  rw [List.find?_map]
  have hKeys : ((fun entry : Text × List Text => decide (entry.1 = name)) ∘
      fun entry : Text × List Text => if entry.1 = source ∧ target ∉ entry.2 then
        (entry.1, entry.2 ++ [target]) else entry) =
      fun entry => decide (entry.1 = name) := by
    funext entry
    show decide ((if _ then _ else _ : Text × List Text).1 = name) = decide (entry.1 = name)
    split <;> rfl
  rw [hKeys]
  cases hFind : refs.entries.find? (·.1 = name) with
  | none =>
      have hNe : name ≠ source := by
        rintro rfl
        obtain ⟨entry, hEntry, hName⟩ := List.mem_map.1 h
        have hNone := List.find?_eq_none.1 hFind entry hEntry
        exact hNone (decide_eq_true hName)
      simp [hNe]
  | some entry =>
      have hName : entry.1 = name := by simpa using List.find?_some hFind
      rw [Option.map_some, hName]
      simp only
      split <;> rfl

/-- An edge mentions its source and then its target. -/
theorem nodes_addEdge (h : refs.nodes = Text.distinct seen) (source target : Text) :
    (refs.addEdge source target).nodes = Text.distinct (seen ++ [source, target]) := by
  have hSource : ((refs.addNode source).addSuccessor source target).nodes =
      Text.distinct (seen ++ [source]) := by
    rw [nodes_addSuccessor, nodes_addNode h]
  rw [List.append_cons]
  exact nodes_addNode hSource target

/-- An edge makes its target the last successor of its source, unless it is one already. -/
theorem successors_addEdge (refs : References) (source target name : Text) :
    (refs.addEdge source target).successors name =
      if name = source ∧ target ∉ refs.successors name then refs.successors name ++ [target]
      else refs.successors name := by
  rw [addEdge, successors_addNode, successors_addSuccessor (mem_nodes_addNode_self refs source),
    successors_addNode]

/-! ## Additions one after another -/

/-- What is added to a graph: a node, or an edge with the nodes that it joins. -/
inductive Addition
  | node (name : Text)
  | edge (source target : Text)
  deriving DecidableEq

namespace Addition

/-- The names that an addition mentions, in the order in which it mentions them. -/
def names : Addition → List Text
  | node name => [name]
  | edge source target => [source, target]

/-- Where an addition leads from a name, if it is an edge from there. -/
def target? (name : Text) : Addition → Option Text
  | node _ => none
  | edge source target => if source = name then some target else none

theorem target?_eq_some_iff {name target : Text} {addition : Addition} :
    addition.target? name = some target ↔ addition = edge name target := by
  cases addition with
  | node other => simp [target?]
  | edge source other => simp [target?]

end Addition

/-- One addition to a graph. -/
def add (refs : References) : Addition → References
  | .node name => refs.addNode name
  | .edge source target => refs.addEdge source target

/-- Additions to a graph, one after another. -/
def addAll (refs : References) (additions : List Addition) : References := additions.foldl add refs

theorem addAll_append (refs : References) (additions more : List Addition) :
    refs.addAll (additions ++ more) = (refs.addAll additions).addAll more :=
  List.foldl_append

/-- An addition appends to the nodes the names that it mentions, as far as they are new. -/
theorem nodes_add (h : refs.nodes = Text.distinct seen) (addition : Addition) :
    (refs.add addition).nodes = Text.distinct (seen ++ addition.names) := by
  cases addition with
  | node name => exact nodes_addNode h name
  | edge source target => exact nodes_addEdge h source target

/-- An addition appends its target to the successors of its source, if it is new there. -/
theorem successors_add {name : Text} (h : refs.successors name = Text.distinct seen)
    (addition : Addition) :
    (refs.add addition).successors name =
      Text.distinct (seen ++ (addition.target? name).toList) := by
  cases addition with
  | node other =>
      show (refs.addNode other).successors name = Text.distinct (seen ++ [])
      rw [successors_addNode, h, List.append_nil]
  | edge source target =>
      show (refs.addEdge source target).successors name =
        Text.distinct (seen ++ (if source = name then some target else none).toList)
      rw [successors_addEdge, h]
      by_cases hName : source = name
      · subst hName
        rw [if_pos rfl, Option.toList_some, Text.distinct_append_singleton]
        by_cases hOld : target ∈ seen <;> simp [hOld]
      · rw [if_neg hName, if_neg fun hBoth => hName hBoth.1.symm, Option.toList_none,
          List.append_nil]

/-- If every addition appends to a view of the graph what is new, so do all of them together. -/
theorem view_addAll (view : References → List Text) {shown : Addition → List Text}
    (hStep : ∀ {refs : References} {seen : List Text}, view refs = Text.distinct seen →
      ∀ addition, view (refs.add addition) = Text.distinct (seen ++ shown addition))
    (h : view refs = Text.distinct seen) (additions : List Addition) :
    view (refs.addAll additions) = Text.distinct (seen ++ additions.flatMap shown) := by
  induction additions generalizing refs seen with
  | nil =>
      rw [List.flatMap_nil, List.append_nil]
      exact h
  | cons addition rest ih =>
      rw [List.flatMap_cons, ← List.append_assoc]
      exact ih (hStep h addition)

/-- The nodes are the names that were mentioned, each at its first mention. -/
theorem nodes_addAll (additions : List Addition) :
    (addAll {} additions).nodes = Text.distinct (additions.flatMap Addition.names) := by
  have hStart : ({} : References).nodes = Text.distinct [] := rfl
  exact view_addAll nodes nodes_add hStart additions

theorem nodup_nodes_addAll (additions : List Addition) : (addAll {} additions).nodes.Nodup := by
  rw [nodes_addAll]
  exact Text.nodup_distinct _

/-- The successors of a name are the targets of its edges, each at its first mention. -/
theorem successors_addAll (additions : List Addition) (name : Text) :
    (addAll {} additions).successors name =
      Text.distinct (additions.filterMap (Addition.target? name)) := by
  have hStart : ({} : References).successors name = Text.distinct [] := rfl
  rw [List.filterMap_eq_flatMap_toList]
  exact view_addAll (·.successors name) successors_add hStart additions

/-! ## A graph and its views -/

/-- A graph that keeps every node once holds its nodes with their successors, and nothing else. -/
theorem entries_eq_map (h : refs.nodes.Nodup) :
    refs.entries = refs.nodes.map fun name => (name, refs.successors name) := by
  have hEntry : ∀ entry ∈ refs.entries, (entry.1, refs.successors entry.1) = entry := by
    intro entry hMem
    rw [successors, (Text.find?_key_eq_some_iff h).2 ⟨hMem, rfl⟩]
  rw [nodes, List.map_map]
  exact (List.map_congr_left hEntry).trans (List.map_id _) |>.symm

/-- Graphs that keep every node once are equal if they look the same. -/
theorem eq_of_views {others : References} (h : refs.nodes.Nodup)
    (hNodes : others.nodes = refs.nodes)
    (hSuccessors : ∀ name, others.successors name = refs.successors name) : others = refs := by
  have hEntries : others.entries = refs.entries := by
    rw [entries_eq_map h, entries_eq_map (hNodes ▸ h), hNodes]
    exact List.map_congr_left fun name _ => by rw [hSuccessors]
  cases others
  cases refs
  exact congrArg References.mk hEntries

/-! ## What additions make of the empty graph -/

/-- A graph is what some additions make of the empty graph. -/
structure IsGrownBy (refs : References) (additions : List Addition) : Prop where
  nodes_eq : refs.nodes = Text.distinct (additions.flatMap Addition.names)
  nodes_nodup : refs.nodes.Nodup
  mem_nodes_iff : ∀ name, name ∈ refs.nodes ↔ ∃ addition ∈ additions, name ∈ addition.names
  successors_eq : ∀ name,
    refs.successors name = Text.distinct (additions.filterMap (Addition.target? name))
  hasEdge_iff : ∀ source target,
    refs.hasEdge source target = true ↔ Addition.edge source target ∈ additions
  /-- Edges lead from nodes to nodes. -/
  closed : ∀ source, ∀ target ∈ refs.successors source,
    source ∈ refs.nodes ∧ target ∈ refs.nodes
  /-- There is nothing in the graph besides. -/
  entries_eq : refs.entries = refs.nodes.map fun name => (name, refs.successors name)
  /-- Nothing changes when an addition is made again. -/
  add_eq_self : ∀ addition ∈ additions, refs.add addition = refs

/-- An addition that was made before mentions no new name and leads nowhere new. -/
theorem add_addAll_eq_self {additions : List Addition} {addition : Addition}
    (h : addition ∈ additions) : (addAll {} additions).add addition = addAll {} additions := by
  have hNodes := nodes_addAll additions
  refine eq_of_views (nodup_nodes_addAll additions) ?_ fun name => ?_
  · rw [nodes_add hNodes, hNodes]
    exact Text.distinct_append_of_subset fun name hName => List.mem_flatMap.2 ⟨_, h, hName⟩
  · have hSuccessors := successors_addAll additions name
    rw [successors_add hSuccessors, hSuccessors]
    refine Text.distinct_append_of_subset fun target hTarget => ?_
    exact List.mem_filterMap.2 ⟨_, h, Option.mem_toList.1 hTarget⟩

/-- Whatever is added to the empty graph, in whatever order, the graph is grown by it. -/
theorem isGrownBy_addAll (additions : List Addition) :
    (addAll {} additions).IsGrownBy additions := by
  have hNodes := nodes_addAll additions
  have hSuccessors := successors_addAll additions
  have hNodup := nodup_nodes_addAll additions
  have hMentioned : ∀ name, name ∈ (addAll {} additions).nodes ↔
      ∃ addition ∈ additions, name ∈ addition.names := by
    intro name
    rw [hNodes, Text.mem_distinct, List.mem_flatMap]
  have hEdge : ∀ source target, target ∈ (addAll {} additions).successors source ↔
      Addition.edge source target ∈ additions := by
    intro source target
    rw [hSuccessors, Text.mem_distinct, List.mem_filterMap]
    simp only [Addition.target?_eq_some_iff, exists_eq_right]
  refine ⟨hNodes, hNodup, hMentioned, hSuccessors, ?_, ?_, entries_eq_map hNodup, ?_⟩
  · exact fun source target => decide_eq_true_iff.trans (hEdge source target)
  · intro source target hTarget
    have hMem := (hEdge source target).1 hTarget
    exact ⟨(hMentioned source).2 ⟨_, hMem, by simp [Addition.names]⟩,
      (hMentioned target).2 ⟨_, hMem, by simp [Addition.names]⟩⟩
  · exact fun addition hMem => add_addAll_eq_self hMem

/-- A node by way of each of its three mentions, an edge back, one to itself, and one again. -/
example : addAll {} [.edge "a" "b", .node "c", .edge "b" "a", .edge "a" "a", .edge "a" "b"] =
    ⟨[("a", ["b", "a"]), ("b", ["a"]), ("c", [])]⟩ := by decide

end References

end TreeTypes

import TreeTypes.Emission
import TreeTypes.Proofs.References

/-!
# The traversal of the references

The traversal works on a stack, and it is economical: a node pushes each
successor once and leaves out those that were visited already. Neither shows
in the result. A name that is met again is passed over, so a node may as well
push everything that its rule mentions (`visit_mentions`), and a stack may be
worked off in two portions (`visit_append`).

In this form the traversal is compared with others, and an induction over it
has a case for a name that was visited and one for a name that was not
(`mentions_induction`).

## Main results

* `References.visit_append`, `References.visit_mentions`
* `References.prefix_visit` — visited names stay where they are.
* `References.forall_mem_visit`, `References.mem_visit_of_mem_successors` — what
  is visited is what the stack leads to.
* `Grammar.nodup_emissionOrder`, `Grammar.mem_emissionOrder_iff` — every rule
  is written exactly once.
-/

namespace TreeTypes

namespace References

variable (refs : References)

/-! ## Fewer unvisited nodes -/

/-- Visiting more leaves fewer nodes unvisited. -/
theorem length_unvisited_append_le (visited more : List Text) :
    (refs.unvisited (visited ++ more)).length ≤ (refs.unvisited visited).length := by
  have hFilter : refs.unvisited (visited ++ more) =
      (refs.unvisited visited).filter (· ∉ more) := by
    simp only [unvisited, List.filter_filter, List.mem_append, not_or, Bool.decide_and]
    exact List.filter_congr fun node _ => Bool.and_comm _ _
  rw [hFilter]
  exact List.length_filter_le _ _

/-- Visiting a new node leaves one node less unvisited. -/
theorem length_unvisited_append_lt {visited : List Text} {name : Text} (hNode : name ∈ refs.nodes)
    (hNew : name ∉ visited) :
    (refs.unvisited (visited ++ [name])).length < (refs.unvisited visited).length := by
  have hMem : name ∈ refs.unvisited visited := by simp [unvisited, hNode, hNew]
  rw [unvisited_append, List.length_filter_lt_length_iff_exists]
  exact ⟨name, hMem, by simp⟩

/-! ## Steps of the traversal -/

theorem visit_nil (visited : List Text) : refs.visit [] visited = visited := by
  rw [visit]

variable {refs}

theorem visit_seen {name : Text} {visited : List Text} (h : name ∈ visited) (rest : List Text) :
    refs.visit (name :: rest) visited = refs.visit rest visited := by
  rw [visit, if_pos h]

theorem visit_new {name : Text} {visited : List Text} (h : name ∉ visited) (rest : List Text) :
    refs.visit (name :: rest) visited =
      refs.visit ((refs.successors name).filter (· ∉ visited ++ [name]) ++ rest)
        (visited ++ [name]) := by
  rw [visit, if_neg h]

variable (refs)

/-- Induction over the steps of the traversal. -/
theorem visit_induction {motive : List Text → List Text → Prop}
    (nil : ∀ visited, motive [] visited)
    (seen : ∀ name rest visited, name ∈ visited → motive rest visited →
      motive (name :: rest) visited)
    (new : ∀ name rest visited, name ∉ visited →
      motive ((refs.successors name).filter (· ∉ visited ++ [name]) ++ rest) (visited ++ [name]) →
        motive (name :: rest) visited) :
    ∀ stack visited, motive stack visited :=
  visit.induct refs motive nil
    (fun visited name rest hSeen ih => seen name rest visited hSeen ih)
    (fun visited name rest hNew ih => new name rest visited hNew ih)

/-- A stack can be worked off in two portions. -/
theorem visit_append (first later visited : List Text) :
    refs.visit (first ++ later) visited = refs.visit later (refs.visit first visited) := by
  induction first, visited using refs.visit_induction with
  | nil visited => rw [visit_nil, List.nil_append]
  | seen name rest visited hSeen ih =>
      rw [List.cons_append, visit_seen hSeen, visit_seen hSeen, ih]
  | new name rest visited hNew ih =>
      rw [List.cons_append, visit_new hNew, visit_new hNew, ← List.append_assoc, ih]

/-- Names that were visited stay visited, in their order. -/
theorem prefix_visit (stack visited : List Text) : visited <+: refs.visit stack visited := by
  induction stack, visited using refs.visit_induction with
  | nil visited => simp [visit_nil]
  | seen name rest visited hSeen ih =>
      rw [visit_seen hSeen]
      exact ih
  | new name rest visited hNew ih =>
      rw [visit_new hNew]
      exact (List.prefix_append visited [name]).trans ih

theorem mem_visit_of_mem_visited {name : Text} {visited : List Text} (h : name ∈ visited)
    (stack : List Text) : name ∈ refs.visit stack visited :=
  (refs.prefix_visit stack visited).subset h

/-- The names on the stack get visited. -/
theorem mem_visit_of_mem_stack {name : Text} {stack : List Text} (h : name ∈ stack)
    (visited : List Text) : name ∈ refs.visit stack visited := by
  induction stack generalizing visited with
  | nil => exact absurd h List.not_mem_nil
  | cons first rest ih =>
      by_cases hSeen : first ∈ visited
      · rw [visit_seen hSeen]
        rcases List.mem_cons.1 h with rfl | hRest
        · exact refs.mem_visit_of_mem_visited hSeen rest
        · exact ih hRest visited
      · rw [visit_new hSeen, visit_append]
        rcases List.mem_cons.1 h with rfl | hRest
        · refine refs.mem_visit_of_mem_visited (refs.mem_visit_of_mem_visited ?_ _) rest
          exact List.mem_append_right _ List.mem_cons_self
        · exact ih hRest _

/-- No name is visited twice. -/
theorem nodup_visit (stack : List Text) {visited : List Text} (h : visited.Nodup) :
    (refs.visit stack visited).Nodup := by
  induction stack, visited using refs.visit_induction with
  | nil visited =>
      rw [visit_nil]
      exact h
  | seen name rest visited hSeen ih =>
      rw [visit_seen hSeen]
      exact ih h
  | new name rest visited hNew ih =>
      rw [visit_new hNew]
      apply ih
      rw [List.nodup_append']
      refine ⟨h, List.nodup_singleton name, ?_⟩
      intro other hOld hName
      rw [List.mem_singleton.1 hName] at hOld
      exact hNew hOld

/-- What the names on the stack have in common, and pass on to their successors, is common to all
that gets visited. -/
theorem forall_mem_visit {P : Text → Prop} (hStep : ∀ name, P name → ∀ target ∈ refs.successors name,
    P target) {stack visited : List Text} (hStack : ∀ name ∈ stack, P name)
    (hVisited : ∀ name ∈ visited, P name) : ∀ name ∈ refs.visit stack visited, P name := by
  induction stack, visited using refs.visit_induction with
  | nil visited =>
      rw [visit_nil]
      exact hVisited
  | seen first rest visited hSeen ih =>
      rw [visit_seen hSeen]
      exact ih (fun name hName => hStack name (List.mem_cons_of_mem _ hName)) hVisited
  | new first rest visited hNew ih =>
      have hFirst : P first := hStack first List.mem_cons_self
      rw [visit_new hNew]
      apply ih
      · intro name hName
        rcases List.mem_append.1 hName with hPushed | hRest
        · exact hStep first hFirst name (List.mem_filter.1 hPushed).1
        · exact hStack name (List.mem_cons_of_mem _ hRest)
      · intro name hName
        rcases List.mem_append.1 hName with hOld | hLast
        · exact hVisited name hOld
        · rw [List.mem_singleton.1 hLast]
          exact hFirst

/-- The successors of what gets visited are visited too. -/
theorem mem_visit_of_mem_successors {stack visited : List Text} {name : Text}
    (h : name ∈ refs.visit stack visited) (hNew : name ∉ visited) {target : Text}
    (hTarget : target ∈ refs.successors name) : target ∈ refs.visit stack visited := by
  induction stack, visited using refs.visit_induction with
  | nil visited =>
      rw [visit_nil] at h
      exact absurd h hNew
  | seen first rest visited hSeen ih =>
      rw [visit_seen hSeen] at h ⊢
      exact ih h hNew
  | new first rest visited hFirst ih =>
      rw [visit_new hFirst] at h ⊢
      by_cases hSame : name = first
      · -- The successors of this name are visited already, or they are on the stack from now on.
        rw [hSame] at hTarget
        by_cases hOld : target ∈ visited ++ [first]
        · exact refs.mem_visit_of_mem_visited hOld _
        · refine refs.mem_visit_of_mem_stack (List.mem_append_left _ ?_) _
          exact List.mem_filter.2 ⟨hTarget, decide_eq_true hOld⟩
      · refine ih h fun hMem => ?_
        rcases List.mem_append.1 hMem with hOld | hLast
        · exact hNew hOld
        · exact hSame (List.mem_singleton.1 hLast)

/-- The traversal depends on the successors only. -/
theorem visit_congr {refs' : References} (h : ∀ name, refs.successors name = refs'.successors name)
    (stack visited : List Text) : refs.visit stack visited = refs'.visit stack visited := by
  induction stack, visited using refs.visit_induction with
  | nil visited => rw [visit_nil, visit_nil]
  | seen name rest visited hSeen ih => rw [visit_seen hSeen, visit_seen hSeen, ih]
  | new name rest visited hNew ih => rw [visit_new hNew, visit_new hNew, ih, h name]

/-! ## Pushing more than necessary -/

theorem visit_cons (name : Text) (rest visited : List Text) :
    refs.visit (name :: rest) visited = refs.visit rest (refs.visit [name] visited) :=
  refs.visit_append [name] rest visited

/-- Names that were visited need not be on the stack. -/
theorem visit_filter {stack seen visited : List Text} (h : ∀ name ∈ seen, name ∈ visited) :
    refs.visit (stack.filter (· ∉ seen)) visited = refs.visit stack visited := by
  induction stack generalizing visited with
  | nil => rfl
  | cons name rest ih =>
      by_cases hName : name ∈ seen
      · rw [List.filter_cons_of_neg (by simpa using hName), visit_seen (h name hName), ih h]
      · rw [List.filter_cons_of_pos (by simpa using hName), visit_cons, visit_cons refs name rest]
        exact ih fun other hOther => refs.mem_visit_of_mem_visited (h other hOther) _

/-- A name need not be on the stack twice. -/
theorem visit_distinct (stack visited : List Text) :
    refs.visit (Text.distinct stack) visited = refs.visit stack visited := by
  induction stack generalizing visited with
  | nil => rfl
  | cons name rest ih =>
      rw [Text.distinct, visit_cons, visit_cons refs name rest, ← ih]
      have hFilter : (Text.distinct rest).filter (· ≠ name) =
          (Text.distinct rest).filter (· ∉ [name]) := by
        simp
      rw [hFilter]
      refine refs.visit_filter fun other hOther => ?_
      rw [List.mem_singleton.1 hOther]
      exact refs.mem_visit_of_mem_stack List.mem_cons_self visited

/-- A node may push everything that it mentions. -/
theorem visit_mentions {next : Text → List Text}
    (hNext : ∀ name, refs.successors name = Text.distinct (next name)) {name : Text}
    {visited : List Text} (h : name ∉ visited) (rest : List Text) :
    refs.visit (name :: rest) visited = refs.visit (next name ++ rest) (visited ++ [name]) := by
  rw [visit_new h, visit_append, visit_append, hNext, refs.visit_filter fun _ hSeen => hSeen,
    visit_distinct]

/-- Induction over the traversal with everything pushed that is mentioned. -/
theorem mentions_induction {next : Text → List Text}
    (hNext : ∀ name, refs.successors name = Text.distinct (next name))
    {motive : List Text → List Text → Prop}
    (nil : ∀ visited, motive [] visited)
    (seen : ∀ name rest visited, name ∈ visited → motive rest visited →
      motive (name :: rest) visited)
    (new : ∀ name rest visited, name ∉ visited →
      motive (next name ++ rest) (visited ++ [name]) → motive (name :: rest) visited) :
    ∀ stack visited, motive stack visited
  | [], visited => nil visited
  | name :: rest, visited =>
    if h : name ∈ visited then
      seen name rest visited h (mentions_induction hNext nil seen new rest visited)
    else
      new name rest visited h
        (mentions_induction hNext nil seen new (next name ++ rest) (visited ++ [name]))
  termination_by stack visited => ((refs.unvisited visited).length, stack.length)
  decreasing_by
    · exact Prod.Lex.right _ (by simp)
    · -- A node leaves the unvisited ones; what is no node has nothing to push.
      by_cases hNode : name ∈ refs.nodes
      · exact Prod.Lex.left _ _ (refs.length_unvisited_append_lt hNode h)
      · have hNothing : next name = [] := by
          have hEmpty := hNext name
          rw [refs.successors_eq_nil hNode] at hEmpty
          cases hCase : next name with
          | nil => rfl
          | cons other others =>
              rw [hCase, Text.distinct] at hEmpty
              exact absurd hEmpty (by simp)
        rw [hNothing, List.nil_append]
        exact Prod.Lex.right' _ (refs.length_unvisited_append_le visited [name]) (by simp)

end References

/-! ## Every rule once -/

namespace Grammar

variable {g : Grammar} {refs : References}

theorem mem_reached_imp (hWell : g.WellFormed) (hRefs : References.ofGrammar g = .ok refs)
    {name : Text} (h : name ∈ g.reached refs) : name ∈ g.declared.map Rule.name := by
  have hCoherent := (References.ofGrammar_eq_ok_iff hWell).1 ⟨refs, hRefs⟩
  refine refs.forall_mem_visit (P := (· ∈ g.declared.map Rule.name)) ?_ ?_ (by simp) name h
  · intro source _ target hTarget
    rw [References.successors_of_ofGrammar hWell hRefs, Text.mem_distinct] at hTarget
    obtain ⟨rule, hRule, -, hSymbol⟩ := exists_of_mem_mentioned hWell hTarget
    exact hCoherent.closed rule hRule target hSymbol
  · intro root hRoot
    rw [List.mem_ite_nil_right] at hRoot
    rw [List.mem_singleton.1 hRoot.2]
    exact (References.mem_nodes_of_ofGrammar hWell hRefs g.root).1 hRoot.1

/-- Every rule is written. -/
theorem mem_emissionOrder_iff (hWell : g.WellFormed) (hRefs : References.ofGrammar g = .ok refs)
    {name : Text} : name ∈ g.emissionOrder refs ↔ name ∈ g.order := by
  have hDeclared : name ∈ g.declared.map Rule.name ↔ name ∈ g.order ∧ name ∉ g.extras :=
    hWell.mem_declared_names
  rw [emissionOrder, List.mem_append, List.mem_append, unreached, List.mem_filter]
  constructor
  · rintro ((hReached | ⟨hName, -⟩) | hExtra)
    · exact (hDeclared.1 (mem_reached_imp hWell hRefs hReached)).1
    · exact (hDeclared.1 hName).1
    · exact hWell.extras_subset name hExtra
  · intro hName
    by_cases hExtra : name ∈ g.extras
    · exact Or.inr hExtra
    · by_cases hReached : name ∈ g.reached refs
      · exact Or.inl (Or.inl hReached)
      · exact Or.inl (Or.inr ⟨hDeclared.2 ⟨hName, hExtra⟩, by simpa using hReached⟩)

/-- No rule is written twice. -/
theorem nodup_emissionOrder (hWell : g.WellFormed) (hRefs : References.ofGrammar g = .ok refs) :
    (g.emissionOrder refs).Nodup := by
  have hNames : (g.declared.map Rule.name).Nodup :=
    hWell.order_nodup.sublist (List.filter_sublist.map Rule.name)
  rw [emissionOrder, List.nodup_append', List.nodup_append']
  refine ⟨⟨refs.nodup_visit _ List.nodup_nil, hNames.filter _, ?_⟩, hWell.extras_nodup, ?_⟩
  · intro name hReached hUnreached
    have hNot := (List.mem_filter.1 hUnreached).2
    exact absurd hReached (by simpa using hNot)
  · intro name hOwn hExtra
    have hDeclared : name ∈ g.declared.map Rule.name := by
      rcases List.mem_append.1 hOwn with hReached | hUnreached
      · exact mem_reached_imp hWell hRefs hReached
      · exact (List.mem_filter.1 hUnreached).1
    exact (hWell.mem_declared_names.1 hDeclared).2 hExtra

end Grammar

end TreeTypes

import TreeTypes.Proofs.Emission.Traversal

/-!
# A traversal with nodes spliced in

Let a graph be given, and a second one in which some places of the successor
lists are taken by *made* nodes. A made node stands for what was there before:
its own successors, and those of the made nodes among them, are what the place
held. The traversals of the two graphs are compared step by step. Where the
second meets a made node, it pushes the successors of that node, and the first
has them on its stack already; everywhere else both do the same.

For this the second traversal must never meet a made node that it has visited,
since the first has no node that it could pass over instead. It suffices that
a made node is mentioned in one place only. Then it comes to the stack once,
together with the other successors of its referrer, and the referrer has been
visited by then. `Pending` is that invariant.

## Main results

* `References.visit_spliced` — without the made nodes, the traversals agree.
* `References.led_visit` — a made node is visited after its referrer.
-/

namespace TreeTypes

namespace References

/-! ## Nodes that stand for others -/

/-- The second list is the first one with every made node replaced by what it stands for. -/
inductive Expands (next : Text → List Text) (made : List Text) : List Text → List Text → Prop
  | nil : Expands next made [] []
  | own {name : Text} {rest rest' : List Text} (hOwn : name ∉ made)
      (hRest : Expands next made rest rest') : Expands next made (name :: rest) (name :: rest')
  | made {name : Text} {inner rest rest' : List Text} (hMade : name ∈ made)
      (hInner : Expands next made (next name) inner) (hRest : Expands next made rest rest') :
      Expands next made (name :: rest) (inner ++ rest')

theorem Expands.append {next : Text → List Text} {made first first' later later' : List Text}
    (hFirst : Expands next made first first') (hLater : Expands next made later later') :
    Expands next made (first ++ later) (first' ++ later') := by
  induction hFirst with
  | nil => exact hLater
  | own hOwn _ ih => exact .own hOwn ih
  | made hMade hInner _ _ ih =>
      rw [List.append_assoc]
      exact .made hMade hInner ih

/-- Every made node is mentioned in one place only. -/
structure OneReferrer (next : Text → List Text) (made : List Text) : Prop where
  unique : ∀ name ∈ made, ∀ a b, name ∈ next a → name ∈ next b → a = b
  once : ∀ name ∈ made, ∀ a, (next a).count name ≤ 1

/-- The made nodes on the stack stand there once and are not visited, and those that are on the
stack or visited have a referrer that is visited. -/
structure Pending (next : Text → List Text) (made stack visited : List Text) : Prop where
  once : ∀ name ∈ made, stack.count name ≤ 1
  new : ∀ name ∈ made, name ∈ stack → name ∉ visited
  referrer : ∀ name ∈ made, name ∈ stack ∨ name ∈ visited →
    ∃ host ∈ visited, name ∈ next host

namespace Pending

variable {next : Text → List Text} {made stack visited : List Text}

/-- A stack without made nodes meets the conditions. -/
theorem start (h : ∀ name ∈ stack, name ∉ made) : Pending next made stack [] := by
  constructor
  · intro name hMade
    rw [List.count_eq_zero_of_not_mem fun hStack => h name hStack hMade]
    omega
  · intro name hMade hStack
    exact absurd hMade (h name hStack)
  · rintro name hMade (hStack | hVisited)
    · exact absurd hMade (h name hStack)
    · exact absurd hVisited List.not_mem_nil

/-- Passing over a name keeps the conditions. -/
theorem skip {name : Text} (h : Pending next made (name :: stack) visited) :
    Pending next made stack visited := by
  constructor
  · intro other hMade
    exact Nat.le_trans List.count_le_count_cons (h.once other hMade)
  · intro other hMade hStack
    exact h.new other hMade (List.mem_cons_of_mem _ hStack)
  · intro other hMade hPresent
    exact h.referrer other hMade (hPresent.imp (List.mem_cons_of_mem _) id)

/-- Visiting a name and pushing what it mentions keeps the conditions. -/
theorem push (hNext : OneReferrer next made) {name : Text}
    (h : Pending next made (name :: stack) visited) (hNew : name ∉ visited) :
    Pending next made (next name ++ stack) (visited ++ [name]) := by
  -- What the visited name mentions was neither on the stack nor visited before.
  have hApart : ∀ other ∈ made, other ∈ next name →
      other ∉ name :: stack ∧ other ∉ visited := by
    intro other hMade hMentioned
    have hNone : ¬ (other ∈ name :: stack ∨ other ∈ visited) := by
      intro hPresent
      obtain ⟨host, hHost, hBy⟩ := h.referrer other hMade hPresent
      rw [hNext.unique other hMade host name hBy hMentioned] at hHost
      exact hNew hHost
    exact ⟨fun hStack => hNone (Or.inl hStack), fun hVisited => hNone (Or.inr hVisited)⟩
  constructor
  · intro other hMade
    rw [List.count_append]
    by_cases hMentioned : other ∈ next name
    · have hStack : other ∉ stack := fun hStack =>
        (hApart other hMade hMentioned).1 (List.mem_cons_of_mem _ hStack)
      rw [List.count_eq_zero_of_not_mem hStack]
      exact hNext.once other hMade name
    · rw [List.count_eq_zero_of_not_mem hMentioned, Nat.zero_add]
      exact h.skip.once other hMade
  · intro other hMade hStack hVisited
    rcases List.mem_append.1 hStack with hMentioned | hRest
    · obtain ⟨hOld, hNotVisited⟩ := hApart other hMade hMentioned
      rcases List.mem_append.1 hVisited with hBefore | hName
      · exact hNotVisited hBefore
      · exact hOld (List.mem_cons.2 (Or.inl (List.mem_singleton.1 hName)))
    · rcases List.mem_append.1 hVisited with hBefore | hName
      · exact h.skip.new other hMade hRest hBefore
      · -- A second occurrence further down the stack would be one too many.
        have hOnce := h.once other hMade
        rw [← List.mem_singleton.1 hName, List.count_cons_self] at hOnce
        have hPositive := List.count_pos_iff.2 hRest
        omega
  · intro other hMade hPresent
    by_cases hMentioned : other ∈ next name
    · exact ⟨name, List.mem_append_right _ List.mem_cons_self, hMentioned⟩
    · have hBefore : other ∈ name :: stack ∨ other ∈ visited := by
        rcases hPresent with hStack | hVisited
        · rcases List.mem_append.1 hStack with hPushed | hRest
          · exact absurd hPushed hMentioned
          · exact Or.inl (List.mem_cons_of_mem _ hRest)
        · rcases List.mem_append.1 hVisited with hOld | hName
          · exact Or.inr hOld
          · exact Or.inl (List.mem_cons.2 (Or.inl (List.mem_singleton.1 hName)))
      obtain ⟨host, hHost, hBy⟩ := h.referrer other hMade hBefore
      exact ⟨host, List.mem_append_left _ hHost, hBy⟩

end Pending

section Splicing

variable {refs refs' : References} {next next' : Text → List Text} {made : List Text}

/-! ## The traversals agree -/

/-- Without the made nodes, the traversal of the graph with made nodes is that of the other. -/
theorem visit_spliced (hNext : ∀ name, refs.successors name = Text.distinct (next name))
    (hNext' : ∀ name, refs'.successors name = Text.distinct (next' name))
    (hReferrer : OneReferrer next' made)
    (hOwn : ∀ name, name ∉ made → Expands next' made (next' name) (next name))
    {stack stack' visited' : List Text} (hStack : Expands next' made stack' stack)
    (hPending : Pending next' made stack' visited') :
    (refs'.visit stack' visited').filter (· ∉ made) =
      refs.visit stack (visited'.filter (· ∉ made)) := by
  induction stack', visited' using refs'.mentions_induction hNext' generalizing stack with
  | nil visited' =>
      cases hStack
      rw [visit_nil, visit_nil]
  | seen name rest visited' hSeen ih =>
      rw [visit_seen hSeen]
      cases hStack with
      | own hName hRest =>
          have hSeenToo : name ∈ visited'.filter (· ∉ made) :=
            List.mem_filter.2 ⟨hSeen, by simpa using hName⟩
          rw [visit_seen hSeenToo]
          exact ih hRest hPending.skip
      | made hMade _ _ => exact absurd hSeen (hPending.new name hMade List.mem_cons_self)
  | new name rest visited' hNew ih =>
      rw [refs'.visit_mentions hNext' hNew]
      have hNextPending := hPending.push hReferrer hNew
      cases hStack with
      | own hName hRest =>
          have hNewToo : name ∉ visited'.filter (· ∉ made) := fun hMem =>
            hNew (List.mem_filter.1 hMem).1
          rw [refs.visit_mentions hNext hNewToo, ih ((hOwn name hName).append hRest) hNextPending,
            List.filter_append, List.filter_cons_of_pos (by simpa using hName), List.filter_nil]
      | made hMade hInner hRest =>
          rw [ih (hInner.append hRest) hNextPending, List.filter_append,
            List.filter_cons_of_neg (by simpa using hMade), List.filter_nil, List.append_nil]

/-! ## Referrers come first -/

/-- Every made node that is visited stands behind a node that mentions it. -/
def Led (next : Text → List Text) (made visited : List Text) : Prop :=
  ∀ name ∈ visited, name ∈ made → ∃ host, name ∈ next host ∧ [host, name].Sublist visited

/-- A made node is visited after its referrer. -/
theorem led_visit (hNext' : ∀ name, refs'.successors name = Text.distinct (next' name))
    (hReferrer : OneReferrer next' made) {stack visited : List Text}
    (hPending : Pending next' made stack visited) (hLed : Led next' made visited) :
    Led next' made (refs'.visit stack visited) := by
  induction stack, visited using refs'.mentions_induction hNext' with
  | nil visited =>
      rw [visit_nil]
      exact hLed
  | seen name rest visited hSeen ih =>
      rw [visit_seen hSeen]
      exact ih hPending.skip hLed
  | new name rest visited hNew ih =>
      rw [refs'.visit_mentions hNext' hNew]
      apply ih (hPending.push hReferrer hNew)
      intro other hOther hMade
      rcases List.mem_append.1 hOther with hOld | hName
      · obtain ⟨host, hBy, hBefore⟩ := hLed other hOld hMade
        exact ⟨host, hBy, hBefore.trans (List.sublist_append_left visited [name])⟩
      · rw [List.mem_singleton.1 hName] at hMade ⊢
        obtain ⟨host, hHost, hBy⟩ := hPending.referrer name hMade (Or.inl List.mem_cons_self)
        exact ⟨host, hBy, (List.singleton_sublist.2 hHost).append (List.Sublist.refl [name])⟩

end Splicing

end References

end TreeTypes

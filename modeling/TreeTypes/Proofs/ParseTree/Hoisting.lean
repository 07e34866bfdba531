import TreeTypes.Proofs.Hoisting.Acceptance
import TreeTypes.Proofs.ParseTree.Basic

/-!
# Hoisting keeps parse trees

A rule stands for the same trees after hoisting. Forward, a derivation is
followed along the outline of the body: a choice that has become a name is
derived through the rule of that name, whose body is the choice again.
Backward, a name in the outline is either one that the body had, or stands for
a choice of the body, and then the derivation goes on with that choice.

The induction is on the derivation each time and not on the body, since rules
refer to each other. It needs that an outline of a whole body has its own
choice still in place, so it is about `OutlinedBelow`, and `Outlined` follows
from it in one step.

## Main results

* `Grammar.derives_hoisted_iff` — the trees of a declared rule stay the same.
-/

namespace TreeTypes

open Hoisting

namespace Grammar

/-- What the comparison of derivations needs to know of a grammar and its hoisted form. -/
structure Outlines (added : List Rule) (g g' : Grammar) : Prop where
  /-- A rule made is found under its name. -/
  find_added : ∀ rule ∈ added, g'.find? rule.name = some rule
  /-- A rule of the first grammar is found in the second, with its body outlined. -/
  find_rule : ∀ name rule, g.find? name = some rule →
    ∃ rule', g'.find? name = some rule' ∧ Expr.OutlinedBelow added rule.body rule'.body
  /-- Rules mention rules. -/
  closed : ∀ name rule, g.find? name = some rule →
    ∀ target ∈ rule.body.symbols, ∃ other, g.find? target = some other

variable {added : List Rule} {g g' : Grammar}

/-- An outline derives what the outline of a whole body derives, through a rule if need be. -/
theorem Outlines.derives_outlined (h : Outlines added g g') {e e' : Expr} {tree : ParseTree}
    (hBelow : ∀ e', Expr.OutlinedBelow added e e' → Derives g' e' tree)
    (hOutlined : Expr.Outlined added e e') : Derives g' e' tree := by
  cases hOutlined with
  | choice hRule hBody hLength hMembers =>
      refine .symbol (h.find_added _ hRule) ?_
      rw [hBody]
      exact hBelow _ (.choice hLength hMembers)
  | symbol name => exact hBelow _ (.other (fun _ => by simp) (.symbol name))
  | terminal kind value => exact hBelow _ (.other (fun _ => by simp) (.terminal kind value))
  | blank => exact hBelow _ (.other (fun _ => by simp) .blank)
  | sequence hLength hMembers =>
      exact hBelow _ (.other (fun _ => by simp) (.sequence hLength hMembers))
  | repetition hContent => exact hBelow _ (.other (fun _ => by simp) (.repetition hContent))

/-- Forward: an outline derives what the body derives. -/
theorem Outlines.derives_of_derives (h : Outlines added g g') {e : Expr} {tree : ParseTree}
    (hDerives : Derives g e tree) :
    ∀ e', Expr.OutlinedBelow added e e' → Derives g' e' tree := by
  induction hDerives with
  | @symbol rule name tree hFind _ ih =>
      intro e' hBelow
      cases hBelow with
      | other _ hOutlined =>
          cases hOutlined
          obtain ⟨rule', hFind', hRule⟩ := h.find_rule name rule hFind
          exact .symbol hFind' (ih rule'.body hRule)
  | terminal kind value =>
      intro e' hBelow
      cases hBelow with
      | other _ hOutlined =>
          cases hOutlined
          exact .terminal kind value
  | blank =>
      intro e' hBelow
      cases hBelow with
      | other _ hOutlined =>
          cases hOutlined
          exact .blank
  | @sequence members trees hLength _ ih =>
      intro e' hBelow
      cases hBelow with
      | other _ hOutlined =>
          cases hOutlined with
          | sequence hLength' hMembers =>
              refine .sequence (hLength'.symm.trans hLength) ?_
              intro pair hPair
              obtain ⟨member, hOriginal, hTree⟩ := exists_mem_zip_of_mem_zip_right hLength' hPair
              exact h.derives_outlined (ih (member, pair.2) hTree) (hMembers _ hOriginal)
  | @choice members index member tree hMember _ ih =>
      intro e' hBelow
      cases hBelow with
      | choice hLength' hMembers =>
          obtain ⟨member', hMember', hPair⟩ := exists_getElem?_mem_zip hLength' hMember
          exact .choice hMember' (h.derives_outlined ih (hMembers _ hPair))
      | other hNot _ => exact absurd rfl (hNot members)
  | @repetition kind content trees _ ih =>
      intro e' hBelow
      cases hBelow with
      | other _ hOutlined =>
          cases hOutlined with
          | repetition hContent =>
              exact .repetition fun tree hTree => h.derives_outlined (ih tree hTree) hContent

/-- Every name that an expression mentions is a rule. -/
def MentionsRules (g : Grammar) (e : Expr) : Prop :=
  ∀ target ∈ e.symbols, ∃ rule, g.find? target = some rule

theorem MentionsRules.of_mem {e : Expr} {members : List Expr}
    (h : ∀ target ∈ Expr.symbolsOfMembers members, ∃ rule, g.find? target = some rule)
    (hMember : e ∈ members) : g.MentionsRules e :=
  fun target hTarget => h target (Expr.mem_symbols_of_mem_members hMember hTarget)

/-- Backward: the body derives what its outline derives. -/
theorem Outlines.derives_of_derives_outline (h : Outlines added g g') {e' : Expr}
    {tree : ParseTree} (hDerives : Derives g' e' tree) :
    ∀ e, g.MentionsRules e → Expr.Outlined added e e' ∨ Expr.OutlinedBelow added e e' →
      Derives g e tree := by
  induction hDerives with
  | @symbol rule' name tree hFind _ ih =>
      intro e hClosed hForm
      have hOutlined : Expr.Outlined added e (.symbol name) :=
        hForm.elim id fun hBelow => hBelow.outlined fun _ => by simp
      cases hOutlined with
      | symbol _ =>
          obtain ⟨rule, hRule⟩ := hClosed name (List.mem_singleton.2 rfl)
          obtain ⟨found, hFound, hBody⟩ := h.find_rule name rule hRule
          rw [Option.some.inj (hFound.symm.trans hFind)] at hBody
          exact .symbol hRule (ih rule.body (h.closed name rule hRule) (Or.inr hBody))
      | @choice members members' made hMade hBody hLength hMembers =>
          rw [Option.some.inj ((h.find_added made hMade).symm.trans hFind)] at hBody
          refine ih (.choice members) hClosed (Or.inr ?_)
          rw [hBody]
          exact .choice hLength hMembers
  | terminal kind value =>
      intro e _ hForm
      have hOutlined : Expr.Outlined added e (.terminal kind value) :=
        hForm.elim id fun hBelow => hBelow.outlined fun _ => by simp
      cases hOutlined
      exact .terminal kind value
  | blank =>
      intro e _ hForm
      have hOutlined : Expr.Outlined added e .blank :=
        hForm.elim id fun hBelow => hBelow.outlined fun _ => by simp
      cases hOutlined
      exact .blank
  | @sequence members' trees hLength _ ih =>
      intro e hClosed hForm
      have hOutlined : Expr.Outlined added e (.sequence members') :=
        hForm.elim id fun hBelow => hBelow.outlined fun _ => by simp
      cases hOutlined with
      | @sequence members _ hLength' hMembers =>
          refine .sequence (hLength'.trans hLength) ?_
          intro pair hPair
          obtain ⟨member', hOutline, hTree⟩ := exists_mem_zip_of_mem_zip_left hLength' hPair
          exact ih _ hTree pair.1 (MentionsRules.of_mem hClosed (List.of_mem_zip hPair).1)
            (Or.inl (hMembers _ hOutline))
  | @choice members' index member' tree hMember' _ ih =>
      intro e hClosed hForm
      rcases hForm with hOutlined | hBelow
      · cases hOutlined
      · cases hBelow with
        | @choice members _ hLength' hMembers =>
            obtain ⟨member, hMember, hPair⟩ := exists_getElem?_mem_zip_right hLength' hMember'
            refine .choice hMember (ih member ?_ (Or.inl (hMembers _ hPair)))
            exact MentionsRules.of_mem hClosed (List.of_mem_zip hPair).1
        | other _ hOutlined => cases hOutlined
  | @repetition kind content' trees _ ih =>
      intro e hClosed hForm
      have hOutlined : Expr.Outlined added e (.repetition kind content') :=
        hForm.elim id fun hBelow => hBelow.outlined fun _ => by simp
      cases hOutlined with
      | @repetition _ content _ hContent =>
          exact .repetition fun tree hTree => ih tree hTree content hClosed (Or.inl hContent)

/-- A coherent grammar is outlined by its hoisted form. -/
theorem WellFormed.outlines_hoisted (hWell : g.WellFormed) (hCoherent : g.Coherent)
    (counters : NameCounters) :
    Outlines (g.harvested counters).synthetic g (g.hoisted counters) := by
  constructor
  · intro made hMade
    exact hWell.find?_made hMade
  · intro name rule hFind
    obtain ⟨hRule, rfl⟩ := hWell.find?_eq_some_iff.1 hFind
    obtain ⟨rule', hFind', hKept⟩ := hWell.exists_kept counters hRule
    refine ⟨rule', hFind', ?_⟩
    cases hExtra : rule.isExtra with
    | true =>
        rw [hKept.extra hExtra]
        exact Expr.outlinedBelow_refl _ (hCoherent.extra_flat rule hRule hExtra)
    | false => exact (hKept.own hExtra).1.2
  · intro name rule hFind target hTarget
    obtain ⟨hRule, -⟩ := hWell.find?_eq_some_iff.1 hFind
    cases hExtra : rule.isExtra with
    | true =>
        rw [hCoherent.extra_symbols rule hRule hExtra] at hTarget
        exact absurd hTarget List.not_mem_nil
    | false =>
        obtain ⟨other, hOther, rfl⟩ := List.mem_map.1
          (hCoherent.closed rule (mem_declared.2 ⟨hRule, hExtra⟩) target hTarget)
        exact ⟨other, hWell.find?_eq_some_iff.2 ⟨(mem_declared.1 hOther).1, rfl⟩⟩

/-- A declared rule stands for the same trees after hoisting. -/
theorem derives_hoisted_iff (hWell : g.WellFormed) (hCoherent : g.Coherent)
    (counters : NameCounters) {name : Text} (hName : name ∈ g.order) (tree : ParseTree) :
    Derives (g.hoisted counters) (.symbol name) tree ↔ Derives g (.symbol name) tree := by
  have hOutlines := hWell.outlines_hoisted hCoherent counters
  have hOwn : Expr.OutlinedBelow (g.harvested counters).synthetic (.symbol name) (.symbol name) :=
    .other (fun _ => by simp) (.symbol name)
  constructor
  · intro hDerives
    refine hOutlines.derives_of_derives_outline hDerives (.symbol name) ?_ (Or.inr hOwn)
    intro target hTarget
    rw [List.mem_singleton.1 hTarget]
    obtain ⟨rule, hRule, hEq⟩ := mem_order.1 hName
    exact ⟨rule, hWell.find?_eq_some_iff.2 ⟨hRule, hEq⟩⟩
  · intro hDerives
    exact hOutlines.derives_of_derives hDerives (.symbol name) hOwn

end Grammar

end TreeTypes

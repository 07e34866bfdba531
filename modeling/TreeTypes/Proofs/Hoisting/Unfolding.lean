import Mathlib.Algebra.Order.BigOperators.Group.List
import Mathlib.Algebra.Order.Group.Nat
import TreeTypes.Proofs.Hoisting.Success

/-!
# Hoisting is undone by unfolding

Whoever puts the body of every rule that hoisting made back in the place of
its name gets the grammar that was declared, symbol for symbol. Unfolding is
defined without any knowledge of hoisting: one round replaces every name of a
rule among some given ones by its body, everywhere and at once, and rounds are
repeated.

Two things have to be shown. Rounds come to an end, because a rule that was
made is mentioned by earlier rules only; the mentions among these rules are
well-founded. And what they end with is the body that was declared, which is
read off the outline: every choice that was replaced by a name is the body of
the rule with that name, one round later.

A body that mentions a name which is no rule can be spoilt by unfolding, if
hoisting happens to make a rule of that name. Hence the hypothesis that the
bodies mention rules only. Whether there is anything to unfold is another
question: hoisting has to succeed.

## Main results

* `Expr.Outlined.unfold_eq` — unfolding takes an outline back.
* `Grammar.unfold_hoist` — unfolding takes hoisting back.
-/

namespace TreeTypes

namespace Expr

/-! ## Unfolding -/

mutual

/-- Puts expressions in the place of the symbols that stand for one, all at once. -/
def substitute (meaning : Text → Option Expr) : Expr → Expr
  | symbol name => (meaning name).getD (symbol name)
  | terminal kind value => terminal kind value
  | blank => blank
  | sequence members => sequence (substituteMembers meaning members)
  | choice members => choice (substituteMembers meaning members)
  | repetition kind content => repetition kind (substitute meaning content)

/-- The same in every member. -/
def substituteMembers (meaning : Text → Option Expr) : List Expr → List Expr
  | [] => []
  | e :: rest => substitute meaning e :: substituteMembers meaning rest

end

@[simp] theorem substituteMembers_eq (meaning : Text → Option Expr) (members : List Expr) :
    substituteMembers meaning members = members.map (substitute meaning) := by
  induction members with
  | nil => rfl
  | cons e rest ih => simp [substituteMembers, ih]

/-- Substitutes a number of times. -/
def unfold (meaning : Text → Option Expr) : (rounds : Nat) → Expr → Expr
  | 0, e => e
  | rounds + 1, e => unfold meaning rounds (e.substitute meaning)

section Unfold

variable (meaning : Text → Option Expr)

theorem unfold_zero : unfold meaning 0 = id := rfl

theorem unfold_sequence (rounds : Nat) (members : List Expr) :
    unfold meaning rounds (sequence members) =
      sequence (members.map (unfold meaning rounds)) := by
  induction rounds generalizing members with
  | zero =>
      rw [unfold_zero, List.map_id]
      rfl
  | succ rounds ih =>
      rw [unfold, substitute, ih, substituteMembers_eq, List.map_map]
      rfl

theorem unfold_choice (rounds : Nat) (members : List Expr) :
    unfold meaning rounds (choice members) = choice (members.map (unfold meaning rounds)) := by
  induction rounds generalizing members with
  | zero =>
      rw [unfold_zero, List.map_id]
      rfl
  | succ rounds ih =>
      rw [unfold, substitute, ih, substituteMembers_eq, List.map_map]
      rfl

theorem unfold_repetition (rounds : Nat) (kind : RepetitionKind) (content : Expr) :
    unfold meaning rounds (repetition kind content) =
      repetition kind (unfold meaning rounds content) := by
  induction rounds generalizing content with
  | zero => rfl
  | succ rounds ih =>
      rw [unfold, substitute, ih]
      rfl

theorem unfold_terminal (rounds : Nat) (kind : TerminalKind) (value : Text) :
    unfold meaning rounds (terminal kind value) = terminal kind value := by
  induction rounds with
  | zero => rfl
  | succ rounds ih =>
      rw [unfold, substitute, ih]

theorem unfold_blank (rounds : Nat) : unfold meaning rounds blank = blank := by
  induction rounds with
  | zero => rfl
  | succ rounds ih =>
      rw [unfold, substitute, ih]

variable {meaning}

/-- A symbol that stands for nothing else stays. -/
theorem unfold_symbol {name : Text} (h : meaning name = none) (rounds : Nat) :
    unfold meaning rounds (symbol name) = symbol name := by
  induction rounds with
  | zero => rfl
  | succ rounds ih =>
      rw [unfold, substitute, h, Option.getD_none, ih]

/-- A symbol that stands for an expression is that expression a round later. -/
theorem unfold_symbol_succ {name : Text} {e : Expr} (h : meaning name = some e) (rounds : Nat) :
    unfold meaning (rounds + 1) (symbol name) = unfold meaning rounds e := by
  rw [unfold, substitute, h, Option.getD_some]

end Unfold

theorem choiceCount_le_of_mem {e : Expr} {members : List Expr} (h : e ∈ members) :
    e.choiceCount ≤ (members.map choiceCount).sum :=
  List.le_sum_of_mem (List.mem_map_of_mem h)

/-- Unfolding takes an outline back, in as many rounds as there are choices or more. -/
theorem Outlined.unfold_eq {added : List Rule} {meaning : Text → Option Expr}
    (hAdded : ∀ rule ∈ added, meaning rule.name = some rule.body) {e e' : Expr}
    (h : Outlined added e e') (hSymbols : ∀ name ∈ e.symbols, meaning name = none) :
    ∀ rounds, e.choiceCount ≤ rounds → e'.unfold meaning rounds = e := by
  induction h with
  | symbol name =>
      intro rounds _
      exact unfold_symbol (hSymbols name (List.mem_singleton.2 rfl)) rounds
  | terminal kind value =>
      intro rounds _
      exact unfold_terminal meaning rounds kind value
  | blank =>
      intro rounds _
      exact unfold_blank meaning rounds
  | @sequence members members' hLength _ ih =>
      intro rounds hRounds
      rw [choiceCount, choiceCountOfMembers_eq] at hRounds
      rw [unfold_sequence, map_eq_of_mem_zip hLength]
      intro pair hPair
      have hMember := (List.of_mem_zip hPair).1
      refine ih pair hPair (fun name hName => ?_) rounds ?_
      · exact hSymbols name (mem_symbols_of_mem_members hMember hName)
      · exact Nat.le_trans (choiceCount_le_of_mem hMember) hRounds
  | repetition _ ih =>
      intro rounds hRounds
      rw [unfold_repetition, ih hSymbols rounds hRounds]
  | @choice members members' rule hRule hBody hLength _ ih =>
      intro rounds hRounds
      rw [choiceCount, choiceCountOfMembers_eq] at hRounds
      obtain ⟨earlier, rfl⟩ : ∃ earlier, rounds = earlier + 1 := ⟨rounds - 1, by omega⟩
      rw [unfold_symbol_succ (hAdded rule hRule), hBody, unfold_choice,
        map_eq_of_mem_zip hLength]
      intro pair hPair
      have hMember := (List.of_mem_zip hPair).1
      refine ih pair hPair (fun name hName => ?_) earlier ?_
      · exact hSymbols name (mem_symbols_of_mem_members hMember hName)
      · have hCount := choiceCount_le_of_mem hMember
        omega

/-- The same for a whole body, whose own choice needs no round. -/
theorem OutlinedBelow.unfold_eq {added : List Rule} {meaning : Text → Option Expr}
    (hAdded : ∀ rule ∈ added, meaning rule.name = some rule.body) {e e' : Expr}
    (h : OutlinedBelow added e e') (hSymbols : ∀ name ∈ e.symbols, meaning name = none)
    {rounds : Nat} (hRounds : e.nestedChoiceCount ≤ rounds) : e'.unfold meaning rounds = e := by
  cases h with
  | @choice members members' hLength hMembers =>
      rw [unfold_choice, map_eq_of_mem_zip hLength]
      intro pair hPair
      have hMember := (List.of_mem_zip hPair).1
      refine (hMembers pair hPair).unfold_eq hAdded
        (fun name hName => hSymbols name (mem_symbols_of_mem_members hMember hName)) rounds ?_
      exact Nat.le_trans (choiceCount_le_of_mem hMember) hRounds
  | other hNot hOutlined =>
      apply hOutlined.unfold_eq hAdded hSymbols rounds
      -- No choice stands at the top, so all choices are nested ones.
      have hCount : e.choiceCount = e.nestedChoiceCount := by
        cases e with
        | choice members => exact absurd rfl (hNot members)
        | sequence members =>
            rw [choiceCount, choiceCountOfMembers_eq]
            rfl
        | repetition kind content => simp [choiceCount, nestedChoiceCount, children]
        | symbol name => rfl
        | terminal kind value => rfl
        | blank => rfl
      rw [hCount]
      exact hRounds

end Expr

/-! ## Rules that mention each other -/

namespace Hoisting

/-- The body that a name stands for among some rules. -/
def bodyAmong (rules : List Rule) (name : Text) : Option Expr :=
  (rules.find? (·.name = name)).map Rule.body

/-- One of some rules is mentioned in the body of another. -/
def MentionedBy (rules : List Rule) (inner outer : Text) : Prop :=
  inner ∈ names rules ∧ ∃ rule ∈ rules, rule.name = outer ∧ inner ∈ rule.body.symbols

/-- Rules in forward order do not mention each other in circles. -/
theorem Forward.wellFounded {rules : List Rule} (h : Forward rules)
    (hNodup : (names rules).Nodup) : WellFounded (MentionedBy rules) := by
  have hSub : ∀ inner outer, MentionedBy rules inner outer →
      (names rules).length - (names rules).idxOf inner <
        (names rules).length - (names rules).idxOf outer := by
    rintro inner outer ⟨hInner, rule, hRule, rfl, hMentioned⟩
    have hLess := idxOf_lt_of_sublist hNodup (h.sublist hRule hMentioned hInner)
    have hBound := List.idxOf_lt_length_of_mem hInner
    omega
  exact Subrelation.wf (hSub _ _)
    (measure fun name => (names rules).length - (names rules).idxOf name).wf

theorem bodyAmong_eq_some {rules : List Rule} (hNodup : (names rules).Nodup) {rule : Rule}
    (h : rule ∈ rules) : bodyAmong rules rule.name = some rule.body := by
  rw [bodyAmong, (Text.find?_key_eq_some_iff hNodup).2 ⟨h, rfl⟩, Option.map_some]

theorem bodyAmong_eq_none {rules : List Rule} {name : Text} (h : name ∉ names rules) :
    bodyAmong rules name = none := by
  unfold bodyAmong
  rw [List.find?_eq_none.2, Option.map_none]
  intro rule hRule hName
  exact h (List.mem_map.2 ⟨rule, hRule, by simpa using hName⟩)

end Hoisting

open Hoisting

namespace Grammar

/-- Hoisting is undone by unfolding. If the bodies mention rules only, the rules that are added do
not mention each other in circles, and putting their bodies in the place of their names often
enough turns the body of every declared rule into what it was. Extras are left alone. Hoisting
fails, and leaves nothing to unfold, exactly if a rule with a nested choice has a name that holds a
surrogate. -/
theorem unfold_hoist {name : Text} {rules : List Rule} {root : Option Text} {extras : List Text}
    {g : Grammar} (hBuilt : ofRules name rules root extras = .ok g)
    (hClosed : ∀ rule ∈ g.rules, rule.isExtra = false →
      ∀ target ∈ rule.body.symbols, target ∈ g.order)
    (counters : NameCounters) :
    (g.Hoistable → ∃ hoisted, g.hoist counters = .ok hoisted ∧
      WellFounded (MentionedBy (g.addedTo hoisted)) ∧
      ∀ rule ∈ g.rules, ∃ rule', hoisted.find? rule.name = some rule' ∧
        (rule.isExtra = true → rule' = rule) ∧
        (rule.isExtra = false → rule' = { rule with body := rule'.body } ∧
          ∀ rounds, rule.body.nestedChoiceCount ≤ rounds →
            rule'.body.unfold (bodyAmong (g.addedTo hoisted)) rounds = rule.body)) ∧
    (¬ g.Hoistable → g.hoist counters = .error .referenceNotUnicode) := by
  have hWell := wellFormed_of_ofRules hBuilt
  have hAdded : g.addedTo (g.hoisted counters) = (g.harvested counters).synthetic :=
    g.addedTo_hoisted counters
  refine hWell.hoist_cases counters ⟨?_, ?_⟩
  · rw [hAdded]
    refine (harvested_forward g.rules _ ?_).wellFounded (g.nodup_invented counters)
    intro target hTarget
    obtain ⟨rule, hRule, hMentioned⟩ := mem_mentions.1 hTarget
    obtain ⟨hRule, hOwn⟩ := mem_own.1 hRule
    exact hClosed rule hRule hOwn target hMentioned
  · intro rule hRule
    obtain ⟨rule', hFind, hKept⟩ := hWell.exists_kept counters hRule
    refine ⟨rule', hFind, hKept.extra, ?_⟩
    intro hOwn
    obtain ⟨⟨hSame, hOutlined⟩, -⟩ := hKept.own hOwn
    refine ⟨hSame, fun rounds hRounds => ?_⟩
    rw [hAdded]
    refine hOutlined.unfold_eq (fun made hMade => ?_) (fun target hTarget => ?_) hRounds
    · exact bodyAmong_eq_some (g.nodup_invented counters) hMade
    · apply bodyAmong_eq_none
      intro hInvented
      exact notMem_order_of_mem_invented hInvented (hClosed rule hRule hOwn target hTarget)

theorem unfold_hoist_sample :
    ∃ hoisted, sample.hoist {} = .ok hoisted ∧
      WellFounded (MentionedBy (sample.addedTo hoisted)) ∧
      ∀ rule ∈ sample.rules, ∃ rule', hoisted.find? rule.name = some rule' ∧
        (rule.isExtra = false →
          rule'.body.unfold (bodyAmong (sample.addedTo hoisted)) rule.body.nestedChoiceCount =
            rule.body) := by
  obtain ⟨hoisted, hHoisted, hWellFounded, hRules⟩ :=
    (unfold_hoist ofRules_sample (by decide) {}).1 hoistable_sample
  refine ⟨hoisted, hHoisted, hWellFounded, ?_⟩
  intro rule hRule
  obtain ⟨rule', hFind, -, hOwn⟩ := hRules rule hRule
  exact ⟨rule', hFind, fun hExtra => (hOwn hExtra).2 _ (Nat.le_refl _)⟩

/-- There is a grammar whose bodies mention rules only, and of which hoisting leaves nothing to
unfold. -/
theorem exists_unfold_hoist_undefined :
    ∃ g, ofRules "g" [.misnamed] none [] = .ok g ∧
      (∀ rule ∈ g.rules, rule.isExtra = false → ∀ target ∈ rule.body.symbols, target ∈ g.order) ∧
      ∀ hoisted, g.hoist {} ≠ .ok hoisted :=
  ⟨misnamed, ofRules_misnamed, by decide,
    fun _ h => not_hoistable_misnamed (hoistable_of_hoist h)⟩

end Grammar

end TreeTypes

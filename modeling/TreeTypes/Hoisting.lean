import TreeTypes.Grammar.Basic
import TreeTypes.Naming
import TreeTypes.Traced

/-!
# Hoisting nested choices

The types that a grammar is turned into have no anonymous sums: an alternation
has to be the whole body of a rule. Hoisting takes every choice that stands
below the top of a body, makes it the body of a new rule, and leaves a
reference to that rule in its place.

```
program   = repeat(choice(a, b))
```

becomes

```
program   = repeat(program_0)
program_0 = choice(a, b)
```

One step (`Rule.hoist`) takes the outermost nested choices of one body, from
left to right, and does not look into them. What it takes out waits in a queue
and is hoisted in its turn, first in, first out, with names that still come
from the rule at the beginning. A choice that waits is smaller than the body
it was taken from, so the queue runs empty.

A rule may bear any name, but a reference only one that is made of characters.
The name of a new rule begins with that of the rule at the beginning, so a
step fails, at the first choice that it takes out, if that name holds a
surrogate. What a step makes of a body (`Rule.hoisted`) does not depend on
this; `Hoisting.announce` reports the new rules and finds the name at fault.

Extra rules are left alone; whether they hold a nested choice is checked where
references are.

## Main definitions

* `Expr.extract`: an expression without its outermost choices.
* `Rule.hoist`: one step.
* `Hoisting.drain`: the queue of one declared rule.
* `Grammar.harvest`, `Grammar.hoist`: all rules, and the grammar of them.
-/

namespace TreeTypes

/-- What is left after taking out choices, the rules made of them, and the supply of names. -/
structure Extracted (α : Type) where
  result : α
  added : List Rule
  supply : NameSupply

namespace Expr

mutual

/-- Puts a reference to a new rule in the place of every outermost choice. -/
def extract (owner : Text) (e : Expr) (s : NameSupply) : Extracted Expr :=
  match e with
  | .choice members =>
    let drawn := s.draw owner
    ⟨.symbol drawn.1, [{ name := drawn.1, body := .choice members, synthetic := true }], drawn.2⟩
  | .sequence members =>
    let inner := extractMembers owner members s
    ⟨.sequence inner.result, inner.added, inner.supply⟩
  | .repetition kind content =>
    let inner := extract owner content s
    ⟨.repetition kind inner.result, inner.added, inner.supply⟩
  | .symbol name => ⟨.symbol name, [], s⟩
  | .terminal kind value => ⟨.terminal kind value, [], s⟩
  | .blank => ⟨.blank, [], s⟩

/-- The same for members from left to right. -/
def extractMembers (owner : Text) (members : List Expr) (s : NameSupply) :
    Extracted (List Expr) :=
  match members with
  | [] => ⟨[], [], s⟩
  | e :: rest =>
    let first := extract owner e s
    let others := extractMembers owner rest first.supply
    ⟨first.result :: others.result, first.added ++ others.added, others.supply⟩

end

/-- Takes the outermost choices below the top. A choice at the top stays where it is. -/
def extractBelow (owner : Text) (e : Expr) (s : NameSupply) : Extracted Expr :=
  match e with
  | .choice members =>
    let inner := extractMembers owner members s
    ⟨.choice inner.result, inner.added, inner.supply⟩
  | .sequence members =>
    let inner := extractMembers owner members s
    ⟨.sequence inner.result, inner.added, inner.supply⟩
  | .repetition kind content =>
    let inner := extract owner content s
    ⟨.repetition kind inner.result, inner.added, inner.supply⟩
  | .symbol name => ⟨.symbol name, [], s⟩
  | .terminal kind value => ⟨.terminal kind value, [], s⟩
  | .blank => ⟨.blank, [], s⟩

end Expr

/-- The rule without nested choices, and a rule for each outermost one. -/
def Rule.hoisted (rule : Rule) (owner : Text) (s : NameSupply) : Extracted Rule :=
  let inner := rule.body.extractBelow owner s
  ⟨{ rule with body := inner.result }, inner.added, inner.supply⟩

namespace Hoisting

/-- The record that a choice is taken out of the rule `host` and becomes the rule `name`. -/
def extracting (host name : Text) : Record :=
  ⟨.debug, .hoisting, Text.concat ["Hoisting nested choice in '", host, "' as '", name, "'"]⟩

/--
Reports the rules that are made of the choices in a rule, one after another,
up to the first whose name no reference may bear.
-/
def announce (host : Text) : (added : List Rule) → Traced Unit
  | [] => return ()
  | rule :: rest => do
    Traced.report [extracting host rule.name]
    if rule.name.isUnicode then announce host rest else .fail .referenceNotUnicode

end Hoisting

/-- One step of hoisting; it fails where the name of a new rule cannot be referred to. -/
def Rule.hoist (rule : Rule) (owner : Text) (s : NameSupply) : Traced (Extracted Rule) := do
  let step := rule.hoisted owner s
  Hoisting.announce rule.name step.added
  return step

namespace Hoisting

/-! ## The queue runs empty -/

/-- The number of nodes in the bodies of some rules. -/
def load : List Rule → Nat
  | [] => 0
  | rule :: rest => rule.body.size + load rest

@[simp] theorem load_nil : load [] = 0 := rfl

@[simp] theorem load_cons (r : Rule) (rest : List Rule) :
    load (r :: rest) = r.body.size + load rest := rfl

@[simp] theorem load_append (a b : List Rule) : load (a ++ b) = load a + load b := by
  induction a with
  | nil => simp
  | cons r rest ih =>
    simp only [List.cons_append, load_cons, ih]
    omega

mutual

/-- What is taken out of an expression is no larger than the expression. -/
theorem load_extract_le (owner : Text) (e : Expr) (s : NameSupply) :
    load (e.extract owner s).added ≤ e.size := by
  cases e with
  | choice members => simp [Expr.extract]
  | sequence members =>
    have h := load_extractMembers_le owner members s
    simp only [Expr.extract, Expr.size]
    omega
  | repetition kind content =>
    have h := load_extract_le owner content s
    simp only [Expr.extract, Expr.size]
    omega
  | symbol name => simp [Expr.extract]
  | terminal kind value => simp [Expr.extract]
  | blank => simp [Expr.extract]

/-- What is taken out of the members is no larger than the members. -/
theorem load_extractMembers_le (owner : Text) (members : List Expr) (s : NameSupply) :
    load (Expr.extractMembers owner members s).added ≤ Expr.sizeMembers members := by
  cases members with
  | nil => simp [Expr.extractMembers]
  | cons e rest =>
    have hFirst := load_extract_le owner e s
    have hOthers := load_extractMembers_le owner rest (e.extract owner s).supply
    simp only [Expr.extractMembers, Expr.sizeMembers, load_append]
    omega

end

/-- What is taken out of a body is smaller than the body. -/
theorem load_hoisted_lt (rule : Rule) (owner : Text) (s : NameSupply) :
    load (rule.hoisted owner s).added < rule.body.size := by
  obtain ⟨name, body, isExtra, synthetic⟩ := rule
  cases body with
  | choice members =>
    have h := load_extractMembers_le owner members s
    simp only [Rule.hoisted, Expr.extractBelow, Expr.size]
    omega
  | sequence members =>
    have h := load_extractMembers_le owner members s
    simp only [Rule.hoisted, Expr.extractBelow, Expr.size]
    omega
  | repetition kind content =>
    have h := load_extract_le owner content s
    simp only [Rule.hoisted, Expr.extractBelow, Expr.size]
    omega
  | symbol name => simp [Rule.hoisted, Expr.extractBelow, Expr.size]
  | terminal kind value => simp [Rule.hoisted, Expr.extractBelow, Expr.size]
  | blank => simp [Rule.hoisted, Expr.extractBelow, Expr.size]

/-! ## All rules -/

/-- Hoisted rules and the supply of names. -/
structure Drained where
  rules : List Rule
  supply : NameSupply

/-- Hoists the rules of a queue and everything that is taken out of them. -/
def drain (owner : Text) (queue : List Rule) (s : NameSupply) : Traced Drained :=
  match queue with
  | [] => return ⟨[], s⟩
  | rule :: waiting => do
    let step := rule.hoisted owner s
    announce rule.name step.added
    let rest ← drain owner (waiting ++ step.added) step.supply
    return ⟨step.result :: rest.rules, rest.supply⟩
  termination_by load queue
  decreasing_by
    have := load_hoisted_lt rule owner s
    simp only [load_append, load_cons]
    omega

/-- The declared rules after hoisting, the rules made, and the supply of names. -/
structure Harvest where
  declared : List Rule
  synthetic : List Rule
  supply : NameSupply

/-- Hoists declared rules one after another, each with everything taken out of it. -/
def harvest (rules : List Rule) (s : NameSupply) : Traced Harvest :=
  match rules with
  | [] => return ⟨[], [], s⟩
  | rule :: rest =>
    if rule.isExtra then do
      let others ← harvest rest s
      return { others with declared := rule :: others.declared }
    else do
      let step ← rule.hoist rule.name s
      let drained ← drain rule.name step.added step.supply
      let others ← harvest rest drained.supply
      return ⟨step.result :: others.declared, drained.rules ++ others.synthetic, others.supply⟩

/-- The record of the number of rules made, if there are any. -/
def Harvest.total (grammar : Text) (h : Harvest) : Log :=
  if h.synthetic.isEmpty then []
  else [⟨.info, .hoisting, Text.concat ["Hoisted ", Text.numeral h.synthetic.length,
    " nested choice(s) in grammar '", grammar, "'"]⟩]

end Hoisting

namespace Grammar

/-- What hoisting makes of the rules of a grammar; the names of its rules are in use. -/
def harvest (g : Grammar) (counters : NameCounters) : Traced Hoisting.Harvest :=
  Hoisting.harvest g.rules ⟨counters, g.order⟩

/--
The grammar without nested choices: the declared rules in their order, and
after them the rules made.
-/
def hoistTraced (g : Grammar) (counters : NameCounters) : Traced Grammar := do
  let h ← g.harvest counters
  Traced.report (h.total g.name)
  Traced.ofExcept (ofRules g.name (h.declared ++ h.synthetic) (some g.root) g.extras)

/-- The grammar without nested choices, apart from what is reported. -/
def hoist (g : Grammar) (counters : NameCounters) : Except Failure Grammar :=
  (g.hoistTraced counters).outcome

end Grammar

end TreeTypes

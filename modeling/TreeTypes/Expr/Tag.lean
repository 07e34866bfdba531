import TreeTypes.Expr.Basic

/-!
# Node tags

In a grammar document a node of a rule body carries a tag. Eight tags stand
for the expressions that are modelled here. Four attach a precedence to their
content, which has no effect on the shape of a parse tree: they are unwrapped
on request and refused otherwise. Four more are known and always refused. Any
other tag is unknown.
-/

namespace TreeTypes

/-- The ways of attaching a precedence. -/
inductive Precedence
  | plain
  | left
  | right
  | dynamic
  deriving DecidableEq

/-- The constructs that are known but not modelled. -/
inductive Foreign
  | label
  | renaming
  | token
  | immediateToken
  deriving DecidableEq

/-- A known tag. -/
inductive Tag
  | symbol
  | terminal (kind : TerminalKind)
  | blank
  | sequence
  | choice
  | repetition (kind : RepetitionKind)
  | precedence (kind : Precedence)
  | foreign (construct : Foreign)
  deriving DecidableEq

namespace Tag

/-- The spelling of a tag. -/
def text : Tag → Text
  | symbol => "SYMBOL"
  | terminal .literal => "STRING"
  | terminal .pattern => "PATTERN"
  | blank => "BLANK"
  | sequence => "SEQ"
  | choice => "CHOICE"
  | repetition .zeroOrMore => "REPEAT"
  | repetition .oneOrMore => "REPEAT1"
  | precedence .plain => "PREC"
  | precedence .left => "PREC_LEFT"
  | precedence .right => "PREC_RIGHT"
  | precedence .dynamic => "PREC_DYNAMIC"
  | foreign .label => "FIELD"
  | foreign .renaming => "ALIAS"
  | foreign .token => "TOKEN"
  | foreign .immediateToken => "IMMEDIATE_TOKEN"

/-- Every known tag. -/
def all : List Tag :=
  [symbol, terminal .literal, terminal .pattern, blank, sequence, choice,
   repetition .zeroOrMore, repetition .oneOrMore,
   precedence .plain, precedence .left, precedence .right, precedence .dynamic,
   foreign .label, foreign .renaming, foreign .token, foreign .immediateToken]

/-- The tag with a spelling. -/
def ofText? (spelling : Text) : Option Tag := all.find? (·.text = spelling)

/-- Reading a spelling finds its tag. -/
@[simp] theorem ofText?_text (tag : Tag) : ofText? tag.text = some tag := by
  cases tag with
  | symbol => decide
  | blank => decide
  | sequence => decide
  | choice => decide
  | terminal kind => cases kind <;> decide
  | repetition kind => cases kind <;> decide
  | precedence kind => cases kind <;> decide
  | foreign construct => cases construct <;> decide

/-- Only its spelling reads as a tag. -/
theorem eq_text_of_ofText? {spelling : Text} {tag : Tag} (h : ofText? spelling = some tag) :
    spelling = tag.text := by
  have hFound := List.find?_some h
  simp only [decide_eq_true_eq] at hFound
  exact hFound.symm

end Tag

end TreeTypes

import TreeTypes.Expr.Tag
import TreeTypes.Datum.Basic

/-!
# Drafts of rule bodies

A rule body is decoded in two steps. The first looks only at the tags and at
the places where nodes hold other nodes; what it leaves is a **draft**, an
expression whose names and values are still unread data. The second step
checks the leaves and the lengths of the lists. So a construct that is not
modelled is reported before any fault in a name, wherever the two stand.

A fault of the second step is reported with its place: the tags, fields and
indices that lead to it from the top.

The second step is the work of a library, which takes nodes inside each other
only up to a certain depth and reports the node beyond it as a fault. How it
counts is its own business: a node is given here by its tag and the tags of
the nodes around it, and `Nesting` tells which of them are taken. There is no
other limit to depth; the call stack is taken to hold every document.

## Main definitions

* `Draft`: an expression with unread leaves.
* `Nesting`: how deep nodes may stand inside each other.
* `BodyFault`: a place and what is wrong there.
* `Draft.check`: draft to expression, or the first fault in document order.
-/

namespace TreeTypes

/-- A rule body whose leaves are unread members of the document, which may be missing. -/
inductive Draft
  | symbol (name : Option Datum)
  | terminal (kind : TerminalKind) (value : Option Datum)
  | blank
  | sequence (members : List Draft)
  | choice (members : List Draft)
  | repetition (kind : RepetitionKind) (content : Draft)

/--
How deep nodes may stand inside each other: whether a node is taken whose tag,
and after it the tags of the nodes around it from the inside out, are the
given ones.
-/
class Nesting where
  admits : List Tag → Bool

/-- At most so many nodes stand inside each other. -/
@[reducible] def Nesting.upTo (depth : Nat) : Nesting := ⟨fun path => path.length ≤ depth⟩

/-- What can be wrong with a node or one of its fields. -/
inductive FieldFault
  | missing
  | notText
  /-- The name of a symbol holds a lone surrogate. -/
  | notUnicode
  | emptyText
  | noMembers
  /-- Too many nodes stand around the node. -/
  | tooDeep
  deriving DecidableEq

/-- The words for a fault of a node or a field. -/
def FieldFault.text : FieldFault → Text
  | missing => "Field required"
  | notText => "Input should be a valid string"
  | notUnicode =>
    "Input should be a valid string, unable to parse raw data as a unicode string"
  | emptyText => "String should have at least 1 character"
  | noMembers => "List should have at least 1 item after validation, not 0"
  | tooDeep => "Recursion error - cyclic reference detected"

/-- A fault with the tags, fields and indices that lead to it. -/
structure BodyFault where
  place : List Text
  fault : FieldFault
  deriving DecidableEq

namespace BodyFault

/-- The description of a fault. -/
def text (fault : BodyFault) : Text :=
  Text.concat [Text.join "." fault.place, ": ", fault.fault.text]

/-- The fault seen from further out. -/
def within (outer : List Text) (fault : BodyFault) : BodyFault :=
  { fault with place := outer ++ fault.place }

end BodyFault

namespace Draft

/-- The name of a symbol: a text of characters that is not empty. -/
def checkName : Option Datum → Except FieldFault Text
  | none => .error .missing
  | some (.text name) =>
    if !name.isUnicode then .error .notUnicode
    else if name = [] then .error .emptyText
    else .ok name
  | some _ => .error .notText

/-- The value of a terminal: any text. -/
def checkValue : Option Datum → Except FieldFault Text
  | none => .error .missing
  | some (.text value) => .ok value
  | some _ => .error .notText

/-- The result of checking a field of a node with a tag. -/
def atField {α : Type} (tag : Tag) (field : Text) : Except FieldFault α → Except BodyFault α
  | .ok a => .ok a
  | .error fault => .error ⟨[tag.text, field], fault⟩

variable [Nesting]

/-- What is made of a node with a tag below nodes with given tags, if it is not too deep. -/
def guarded {α : Type} (above : List Tag) (tag : Tag) (result : Except BodyFault α) :
    Except BodyFault α :=
  if Nesting.admits (tag :: above) then result else .error ⟨[tag.text], .tooDeep⟩

mutual

/--
The expression that a draft stands for, or its first fault. The tags of the
nodes around it are `above`, from the inside out.
-/
def check (above : List Tag) : Draft → Except BodyFault Expr
  | symbol name =>
    guarded above .symbol ((atField .symbol "name" (checkName name)).map .symbol)
  | terminal kind value =>
    guarded above (.terminal kind)
      ((atField (.terminal kind) "value" (checkValue value)).map (.terminal kind))
  | blank => guarded above .blank (.ok .blank)
  | sequence members =>
    guarded above .sequence <|
      if members.isEmpty then atField .sequence "members" (.error .noMembers)
      else (checkMembers above .sequence 0 members).map .sequence
  | choice members =>
    guarded above .choice <|
      if members.isEmpty then atField .choice "members" (.error .noMembers)
      else (checkMembers above .choice 0 members).map .choice
  | repetition kind content =>
    guarded above (.repetition kind) <|
      match check (.repetition kind :: above) content with
      | .ok e => .ok (.repetition kind e)
      | .error fault => .error (fault.within [(Tag.repetition kind).text, "content"])

/--
The expressions that the members of a node with a tag stand for; `index` is
that of the first.
-/
def checkMembers (above : List Tag) (tag : Tag) (index : Nat) :
    List Draft → Except BodyFault (List Expr)
  | [] => .ok []
  | draft :: rest =>
    match check (tag :: above) draft with
    | .error fault => .error (fault.within [tag.text, "members", Text.numeral index])
    | .ok e => (checkMembers above tag (index + 1) rest).map (e :: ·)

end

end Draft

end TreeTypes

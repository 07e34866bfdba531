import TreeTypes.Datum.Literal
import TreeTypes.Expr.Draft
import TreeTypes.Traced

/-!
# Decoding rule bodies

The node of a rule body is an object with a tag in its member `type`. The scan
goes through the nodes in pre-order: a node, then the items of its member
`members` from left to right, or its member `content`. It refuses the first
node that is no object, has no text for a tag, has an unknown tag or one that
is not modelled, or lacks the member that should hold its parts. Nodes that
attach a precedence are replaced by their content when the settings ask for
it, each with a warning, and refused otherwise. All other members of a node
are ignored.

Only when every node has passed are the leaves looked at (`Draft.check`), so
the decoder never takes a grammar for something it is not.

## Main definitions

* `Body`: what the decoder needs to know besides the node itself.
* `Draft.scan`: node to draft.
* `Expr.decode`: node to expression.
-/

namespace TreeTypes

/-- The surroundings of a rule body: the settings, the rule's name and the file. -/
structure Body where
  settings : Settings
  rule : Text
  source : Option FilePath

namespace Body

/-- A refusal located in the rule. -/
def fail {α : Type} (body : Body) (cause : Cause) : Traced α :=
  .fail (.located { rule := some body.rule, source := body.source } cause)

/-- The refusal of a construct that is not modelled. -/
def failUnsupported {α : Type} (body : Body) (tag : Tag) : Traced α :=
  .fail (.diagnosed (.unsupported tag.text (some body.rule) body.source
    (.unsupportedConstruct tag.text)))

/-- The failure about a tag that is no text. It shows the tag, unless that cannot be shown. -/
def tagNotText (body : Body) (tag : Option Datum) : Failure :=
  match Datum.literal? tag with
  | some literal => .located { rule := some body.rule, source := body.source } (.tagNotText literal)
  | none => .integerTooLong

/-- The warning that a precedence is dropped. -/
def stripping (body : Body) (tag : Tag) : Record :=
  ⟨.warning, .decoding, Text.concat ["Stripping ", tag.text, " in rule '", body.rule, "'"]⟩

end Body

namespace Draft

mutual

/-- The draft of a node. -/
def scan (body : Body) : Datum → Traced Draft
  | .object members =>
    match Datum.lookup "type" members with
    | some (.text spelling) =>
      match Tag.ofText? spelling with
      | none => body.fail (.unknownTag spelling)
      | some .symbol => pure (symbol (Datum.lookup "name" members))
      | some (.terminal kind) => pure (terminal kind (Datum.lookup "value" members))
      | some .blank => pure blank
      | some .sequence => do return sequence (← scanMembers body .sequence members)
      | some .choice => do return choice (← scanMembers body .choice members)
      | some (.repetition kind) => do
        return repetition kind (← scanContent body (.repetition kind) [] members)
      | some (.precedence kind) =>
        if body.settings.stripPrecedence then
          scanContent body (.precedence kind) [body.stripping (.precedence kind)] members
        else body.failUnsupported (.precedence kind)
      | some (.foreign construct) => body.failUnsupported (.foreign construct)
    | tag => .fail (body.tagNotText tag)
  | node => body.fail (.nodeNotObject node.kind)

/-- The draft of the content of a node, after the records that its presence calls for. -/
def scanContent (body : Body) (tag : Tag) (records : Log) : List (Text × Datum) → Traced Draft
  | [] => body.fail (.withoutContent tag)
  | (key, value) :: rest =>
    if key = "content" then do
      Traced.report records
      scan body value
    else scanContent body tag records rest

/-- The drafts of the members of a node. -/
def scanMembers (body : Body) (tag : Tag) : List (Text × Datum) → Traced (List Draft)
  | [] => body.fail (.withoutMembers tag)
  | (key, value) :: rest =>
    if key = "members" then
      match value with
      | .array items => scanItems body items
      | _ => body.fail (.withoutMembers tag)
    else scanMembers body tag rest

/-- The drafts of nodes from left to right. -/
def scanItems (body : Body) : List Datum → Traced (List Draft)
  | [] => pure []
  | item :: rest => do return (← scan body item) :: (← scanItems body rest)

end

end Draft

namespace Expr

variable [Nesting]

/-- The expression that a node below nodes with given tags stands for. -/
def decodeBelow (body : Body) (above : List Tag) (node : Datum) : Traced Expr := do
  let draft ← Draft.scan body node
  match draft.check above with
  | .ok e => return e
  | .error fault => body.fail (.invalidBody fault)

/-- The expression that a node stands for. -/
def decode (body : Body) (node : Datum) : Traced Expr := decodeBelow body [] node

end Expr

end TreeTypes

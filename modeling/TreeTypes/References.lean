import TreeTypes.Grammar.Basic
import TreeTypes.Log

/-!
# References between rules

Which rule mentions which is a directed graph over the rules that are no
extras. Both its nodes and the successors of a node are kept in the order in
which they were first mentioned, because the order of the output is read off
it. Rules may mention themselves and each other.

Building the graph of a grammar checks what the output depends on: every
symbol names a rule, declared rules and extras do not mention each other, and
an extra is like a terminal, without references and without nested choices.
Rules are checked in declaration order, so the first violation is reported;
the edges found before it have then been reported as well.

## Main definitions

* `References`, with `nodes`, `successors` and `hasEdge` as its views.
* `References.addNode`, `References.addEdge`.
* `References.ofGrammar`: the graph of a grammar, or the first violation.
-/

namespace TreeTypes

/-- The nodes in order of first mention, each with its successors in order of first mention. -/
structure References where
  entries : List (Text × List Text) := []
  deriving DecidableEq

namespace References

/-! ## Views -/

/-- The nodes. -/
def nodes (refs : References) : List Text := refs.entries.map (·.1)

/-- The successors of a node; what is no node has none. -/
def successors (refs : References) (node : Text) : List Text :=
  match refs.entries.find? (·.1 = node) with
  | some entry => entry.2
  | none => []

/-- There is an edge from one node to another. -/
def hasEdge (refs : References) (source target : Text) : Bool := target ∈ refs.successors source

/-! ## Growing -/

/-- Adds a node, if it is not there yet. -/
def addNode (refs : References) (node : Text) : References :=
  if node ∈ refs.nodes then refs else ⟨refs.entries ++ [(node, [])]⟩

/-- Adds a successor to a node that is there, if it is not a successor yet. -/
def addSuccessor (refs : References) (source target : Text) : References :=
  ⟨refs.entries.map fun entry =>
    if entry.1 = source ∧ target ∉ entry.2 then (entry.1, entry.2 ++ [target]) else entry⟩

/-- Adds an edge; the nodes that it joins are added before and after it. -/
def addEdge (refs : References) (source target : Text) : References :=
  ((refs.addNode source).addSuccessor source target).addNode target

/-! ## The references of a grammar -/

/-- The construct that messages about references to and from extras name. -/
def extraReference : Text := "extra reference"

/-- Why a declared rule may not mention a name. -/
def violation (g : Grammar) (rule target : Text) : Option Failure :=
  if !g.has target then some (.diagnosed (.undefinedRule target (some rule) none))
  else if target ∈ g.extras then
    some (.diagnosed (.unsupported extraReference (some rule) none (.referenceToExtra target)))
  else none

/-- Why an extra rule is not like a terminal: its first reference, or a nested choice. -/
def extraViolation (rule : Rule) : Option Failure :=
  match rule.body.symbols with
  | target :: _ =>
    some (.diagnosed
      (.unsupported extraReference (some rule.name) none (.referenceFromExtra target)))
  | [] =>
    if rule.body.hasNestedChoice then
      some (.diagnosed (.unsupported Tag.choice.text (some rule.name) none .choiceInExtra))
    else none

/-- A graph under construction, and the violation that stopped it, if one did. -/
structure Collected where
  graph : References
  stopped : Option Failure

/-- Adds the references of a declared rule, up to the first violation. -/
def collectSymbols (g : Grammar) (rule : Text) : List Text → References → Collected
  | [], refs => ⟨refs, none⟩
  | target :: rest, refs =>
    match violation g rule target with
    | some failure => ⟨refs, some failure⟩
    | none => collectSymbols g rule rest (refs.addEdge rule target)

/-- Adds the references of rules, up to the first violation. -/
def collectRules (g : Grammar) : List Rule → References → Collected
  | [], refs => ⟨refs, none⟩
  | rule :: rest, refs =>
    if rule.isExtra then
      match extraViolation rule with
      | some failure => ⟨refs, some failure⟩
      | none => collectRules g rest refs
    else
      let own := collectSymbols g rule.name rule.body.symbols (refs.addNode rule.name)
      match own.stopped with
      | some failure => ⟨own.graph, some failure⟩
      | none => collectRules g rest own.graph

/-- The references of a grammar, as far as they are without a violation. -/
def collect (g : Grammar) : Collected := collectRules g g.rules {}

/-- The references of a grammar, or the first violation. -/
def ofGrammar (g : Grammar) : Except Failure References :=
  match (collect g).stopped with
  | some failure => .error failure
  | none => .ok (collect g).graph

/--
The records of the edges. Rules are gone through in declaration order, and the
edges of a rule in the order of its successors, which is the order in which
they were added.
-/
def log (g : Grammar) (refs : References) : Log :=
  g.rules.flatMap fun rule =>
    (refs.successors rule.name).map fun target =>
      ⟨.debug, .ordering, Text.concat ["Dependency edge ", rule.name, " -> ", target]⟩

end References

end TreeTypes

import TreeTypes.Expr.Decode
import TreeTypes.Grammar.Basic

/-!
# Grammar documents

A grammar document is a JSON object. Four of its members matter: `name`,
`rules`, an object whose members are the rules in declaration order,
`externals`, which must stand for nothing, and `extras`, a list whose entries
with the tag of a symbol name the extra rules. Other extras, such as a pattern
for blanks, have no rule of their own and are passed over.

The members are checked in this order, and the rule bodies last, so one of
several faults is always the same one.

## Main definitions

* `Document.externalNames`: what the message about external tokens lists.
* `Document.extraNames`: the names of the extra rules.
* `Grammar.ofObject`, `Grammar.ofDocument`: document to grammar.
-/

namespace TreeTypes

namespace Document

/-- A member that is a text and not empty. -/
def nonEmptyText? (key : Text) (members : List (Text × Datum)) : Option Text :=
  match Datum.lookup key members with
  | some (.text (p :: rest)) => some (p :: rest)
  | _ => none

/-- The name data of the external tokens; entries that are no object are skipped. -/
def externalEntries (items : List Datum) : List Datum :=
  items.filterMap fun
    | .object members => some ((Datum.lookup "name" members).getD (.text "?"))
    | _ => none

/-- The names as texts; the first that is none makes the report of the tokens fail. -/
def requireTexts : (index : Nat) → List Datum → Except Failure (List Text)
  | _, [] => .ok []
  | index, .text name :: rest => (requireTexts (index + 1) rest).map (name :: ·)
  | index, other :: _ => .error (.nameNotText index other.kind)

/--
The names of the external tokens. The entries of a list that are objects have
names; a text or an object has parts but no such entry; anything else has no
parts at all.
-/
def externalNames : Datum → Except Failure (List Text)
  | .array items => requireTexts 0 (externalEntries items)
  | .text _ => .ok []
  | .object _ => .ok []
  | other => .error (.notIterable other.kind)

/-- Refuses a document with external tokens. -/
def refuseExternals (source : Option FilePath) (externals : Datum) : Except Failure Unit :=
  if externals.isVacuous then .ok ()
  else
    match externalNames externals with
    | .error failure => .error failure
    | .ok names =>
      .error (.diagnosed (.unsupported "externals" none source (.externalTokens names)))

/-- The record that an extra without a rule is passed over. -/
def passingOver (entry : Datum) : Record :=
  ⟨.debug, .decoding, entry.literal.map (("Ignoring inline extra " : Text) ++ ·)⟩

/-- The names of the extra rules, each once, after the names found so far. -/
def extraNamesFrom (source : Option FilePath) : (found : List Text) → List Datum →
    Traced (List Text)
  | found, [] => pure found
  | found, entry :: rest =>
    let passOver : Traced (List Text) := do
      Traced.report [passingOver entry]
      extraNamesFrom source found rest
    match entry with
    | .object members =>
      match Datum.lookup "type" members with
      | some (.text tag) =>
        if tag = Tag.symbol.text then
          match nonEmptyText? "name" members with
          | some name =>
            extraNamesFrom source (if name ∈ found then found else found ++ [name]) rest
          | none => .fail (.located { source } .extraWithoutName)
        else passOver
      | _ => passOver
    | _ => passOver

/-- The names of the extra rules that an extras member lists. -/
def extraNames (source : Option FilePath) : Datum → Traced (List Text)
  | .array entries => extraNamesFrom source [] entries
  | _ => .fail (.located { source } .extrasNotList)

/-- Fails with the first extra that is no key of the rules. -/
def requireDefined (source : Option FilePath) (rules : List (Text × Datum)) :
    List Text → Except Failure Unit
  | [] => .ok ()
  | name :: rest =>
    match Datum.lookup name rules with
    | some _ => requireDefined source rules rest
    | none =>
      .error (.located { construct := some ("extras" : Text), source } (.undefinedExtra name))

/-- The rules of a document, decoded one after another. -/
def decodeRules [Nesting] (settings : Settings) (source : Option FilePath) (extras : List Text) :
    List (Text × Datum) → Traced (List Rule)
  | [] => pure []
  | (name, node) :: rest => do
    let body ← Expr.decode ⟨settings, name, source⟩ node
    let rules ← decodeRules settings source extras rest
    return { name, body, isExtra := decide (name ∈ extras) } :: rules

end Document

namespace Grammar

/-- The record of a grammar that has been read. -/
def loaded (g : Grammar) : Record :=
  ⟨.info, .decoding,
    Text.concat ["Loaded grammar '", g.name, "': ", Text.numeral g.rules.length, " rule(s), ",
      Text.numeral g.extras.length, " extra(s)"]⟩

/-- The failure of the document as a whole; it names the file, if there is one. -/
def failDocument {α : Type} (source : Option FilePath) (cause : Cause) : Traced α :=
  .fail (.diagnosed ⟨cause, source.map fun path => { source := some path }⟩)

variable [Nesting]

open Document in
/-- The grammar that the members of a document describe. -/
def ofObject (settings : Settings) (source : Option FilePath) (document : List (Text × Datum)) :
    Traced Grammar :=
  match nonEmptyText? "name" document with
  | none => failDocument source .grammarWithoutName
  | some name =>
    match Datum.lookup "rules" document with
    | some (.object (first :: rest)) => do
      let rules := first :: rest
      Traced.ofExcept (refuseExternals source ((Datum.lookup "externals" document).getD .null))
      let extras ← extraNames source ((Datum.lookup "extras" document).getD (.array []))
      Traced.ofExcept (requireDefined source rules extras)
      let declared ← decodeRules settings source extras rules
      let g ← Traced.ofExcept (Grammar.ofRules name declared none extras)
      Traced.report [g.loaded]
      return g
    | _ => failDocument source .grammarWithoutRules

/-- The grammar of a decoded document, which has to be an object. -/
def ofDatum (settings : Settings) (source : Option FilePath) : Datum → Traced Grammar
  | .object document => ofObject settings source document
  | _ => failDocument source .documentNotObject

/--
The grammar of a document, which may be decoded already or still be a text of
JSON. A text that writes an integer that is too long is refused without a
diagnostic.
-/
def ofDocument (settings : Settings) (source : Option FilePath) : Datum → Traced Grammar
  | .text text =>
    match Json.read text with
    | .ok datum => ofDatum settings source datum
    | .error (.malformed fault) => failDocument source (.malformedDocument fault)
    | .error (.longNumeral digits) => .fail (.numeralTooLong digits)
  | datum => ofDatum settings source datum

end Grammar

end TreeTypes

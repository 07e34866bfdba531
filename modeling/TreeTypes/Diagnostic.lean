import TreeTypes.Expr.Draft
import TreeTypes.FileAccess
import TreeTypes.Json.Reader
import TreeTypes.Settings
import TreeTypes.Toml.Fault

/-!
# What can go wrong

Everything that the program reports about its input is a **diagnostic**: a
cause, and the place it is about. Causes are listed here and nowhere else,
with their kind and their wording, so that a law about failures is a statement
about causes and the text of a message is decided once.

A few inputs make the program fail without a diagnostic; a `Failure` is either
a diagnostic or one of those. A number or a name that the program cannot handle
is found by a library in the middle of a step, and nothing turns that into a
diagnostic.

## Main definitions

* `Diagnostic.Kind`: the sorts of diagnostics, with their names.
* `Location`: the rule, construct and file that a message is about.
* `Cause`, `Cause.kind`, `Cause.message`
* `Diagnostic`, `Failure`
-/

namespace TreeTypes

/-- The sorts of diagnostics. -/
inductive Diagnostic.Kind
  /-- The document cannot be decoded. -/
  | decode
  /-- A name refers to no rule. -/
  | unknownReference
  /-- The grammar uses something that is not modelled. -/
  | unsupported
  /-- A defect of the program itself. -/
  | invariant
  /-- The settings are unusable. -/
  | settings
  deriving DecidableEq

/-- The name of a sort. -/
def Diagnostic.Kind.label : Diagnostic.Kind → Text
  | decode => "DecodeError"
  | unknownReference => "UnknownRuleReference"
  | unsupported => "UnsupportedConstruct"
  | invariant => "InternalInvariantViolation"
  | settings => "ConfigError"

/-- What a message is about. An empty rule or construct is as good as none. -/
structure Location where
  rule : Option Text := none
  construct : Option Text := none
  source : Option FilePath := none
  deriving DecidableEq

namespace Location

/-- A text that is there and not empty. -/
def given : Option Text → Option Text
  | some (p :: rest) => some (p :: rest)
  | _ => none

/-- The file and the rule, then the construct in parentheses. -/
def text (l : Location) : Text :=
  let source := l.source.map FilePath.text
  let rule := (given l.rule).map fun rule => Text.concat ["rule '", rule, "'"]
  let place := Text.join ": " (source.toList ++ rule.toList)
  match given l.construct with
  | none => place
  | some construct =>
    Text.concat [place, if place.isEmpty then "" else " ", "(", construct, ")"]

/-- A message after its location; a location without content still leaves its colon. -/
def introduce : Option Location → Text → Text
  | none, message => message
  | some l, message => Text.concat [l.text, ": ", message]

end Location

/-- Why the program refuses its input. -/
inductive Cause
  -- Files and settings
  | unreadableGrammar (path : FilePath) (fault : FileFault)
  | unreadableSettings (path : FilePath) (fault : FileFault)
  | malformedSettings (path : FilePath) (fault : Toml.Fault)
  | unsuitableSettings (source : Option FilePath) (fault : Settings.Fault)
  -- The grammar document
  | malformedDocument (fault : Json.Fault)
  | documentNotObject
  | grammarWithoutName
  | grammarWithoutRules
  | externalTokens (names : List Text)
  | extrasNotList
  | extraWithoutName
  | undefinedExtra (name : Text)
  -- Rule bodies
  | nodeNotObject (found : Datum.Kind)
  /-- The tag is a datum, shown here by its literal, that is no text. -/
  | tagNotText (literal : Text)
  | unknownTag (tag : Text)
  | unsupportedConstruct (construct : Text)
  | withoutContent (tag : Tag)
  | withoutMembers (tag : Tag)
  | invalidBody (fault : BodyFault)
  -- Grammars and their references
  | duplicateRule (name : Text)
  | noRules (grammar : Text)
  | undefinedRule (name : Text)
  | referenceToExtra (name : Text)
  | referenceFromExtra (name : Text)
  | choiceInExtra
  -- Types
  | choiceInType
  | nothingToWrite
  deriving DecidableEq

namespace Cause

/-- The sort of a cause. -/
def kind : Cause → Diagnostic.Kind
  | unreadableSettings .. | malformedSettings .. | unsuitableSettings .. => .settings
  | undefinedExtra _ | undefinedRule _ => .unknownReference
  | externalTokens _ | unsupportedConstruct _ | referenceToExtra _ | referenceFromExtra _
  | choiceInExtra => .unsupported
  | choiceInType | nothingToWrite => .invariant
  | unreadableGrammar .. | malformedDocument _ | documentNotObject | grammarWithoutName
  | grammarWithoutRules | extrasNotList | extraWithoutName | nodeNotObject _ | tagNotText _
  | unknownTag _ | withoutContent _ | withoutMembers _ | invalidBody _ | duplicateRule _
  | noRules _ => .decode

/-- The wording of a cause. -/
def message : Cause → Text
  | unreadableGrammar path fault =>
    Text.concat ["Cannot read grammar file ", path.text, ": ", fault.text path]
  | unreadableSettings path fault =>
    Text.concat ["Cannot read config file ", path.text, ": ", fault.text path]
  | malformedSettings path fault => Text.concat ["Invalid TOML in ", path.text, ": ", fault.text]
  | unsuitableSettings none fault => fault.text
  | unsuitableSettings (some path) fault => Text.concat [path.text, ": ", fault.text]
  | malformedDocument fault => Text.concat ["invalid JSON: ", fault.text]
  | documentNotObject => "grammar document must be a JSON object"
  | grammarWithoutName => "grammar requires a non-empty 'name'"
  | grammarWithoutRules => "grammar requires a non-empty 'rules' object"
  | externalTokens names =>
    Text.concat ["external scanner tokens are not supported: ", Text.join ", " names]
  | extrasNotList => "'extras' must be a list"
  | extraWithoutName => "extras SYMBOL without a name"
  | undefinedExtra name =>
    Text.concat ["extras entry references undefined rule '", name, "'"]
  | nodeNotObject found =>
    Text.concat ["rule body node must be an object, got ", found.label]
  | tagNotText literal => Text.concat ["node 'type' must be a string, got ", literal]
  | unknownTag tag => Text.concat ["unknown node type ", tag.quoted]
  | unsupportedConstruct construct => Text.concat [construct, " is not supported"]
  | withoutContent tag => Text.concat [tag.text, " node without content"]
  | withoutMembers tag => Text.concat [tag.text, " node requires a 'members' list"]
  | invalidBody fault => Text.concat ["invalid rule body: ", fault.text]
  | duplicateRule name => Text.concat ["Duplicate rule '", name, "'"]
  | noRules grammar => Text.concat ["Grammar '", grammar, "' defines no rules"]
  | undefinedRule name => Text.concat ["reference to undefined rule '", name, "'"]
  | referenceToExtra name =>
    Text.concat ["reference to extra rule '", name, "' from a non-extra rule"]
  | referenceFromExtra name => Text.concat ["extra rule references rule '", name, "'"]
  | choiceInExtra => "extra rule contains a nested CHOICE"
  | choiceInType => "nested CHOICE reached type generation; it should have been hoisted"
  | nothingToWrite => "no type declarations to render"

end Cause

/-- A refusal: its cause, and its location if it has one. -/
structure Diagnostic where
  cause : Cause
  location : Option Location := none
  deriving DecidableEq

namespace Diagnostic

/-- The sort of a diagnostic. -/
def kind (d : Diagnostic) : Kind := d.cause.kind

/-- The whole text of a diagnostic. -/
def message (d : Diagnostic) : Text := Location.introduce d.location d.cause.message

/--
A reference to a rule that does not exist. It has a location only if a rule or
a file is known.
-/
def undefinedRule (name : Text) (rule : Option Text) (source : Option FilePath) : Diagnostic :=
  if (Location.given rule).isSome || source.isSome then
    ⟨.undefinedRule name, some { rule, source }⟩
  else ⟨.undefinedRule name, none⟩

/-- A construct that is not modelled, in a rule and a file if they are known. -/
def unsupported (construct : Text) (rule : Option Text) (source : Option FilePath)
    (cause : Cause) : Diagnostic :=
  ⟨cause, some { rule, construct := some construct, source }⟩

end Diagnostic

/-- How the program can fail. -/
inductive Failure
  | diagnosed (diagnostic : Diagnostic)
  /-- The list of external tokens is not a list, an object or a text. -/
  | notIterable (found : Datum.Kind)
  /-- The name of an external token, by its index, is not a text. -/
  | nameNotText (index : Nat) (found : Datum.Kind)
  /-- A tuple type or a variant has no component. -/
  | emptyComposite
  /-- A reference would have to bear a name that is not made of characters. -/
  | referenceNotUnicode
  /-- An integer that is read has this many digits, more than `Text.maxDigits`. -/
  | numeralTooLong (digits : Nat)
  /-- An integer that is shown has more than `Text.maxDigits` digits. -/
  | integerTooLong
  deriving DecidableEq

namespace Failure

/-- What is said about integers that are too long. -/
def lengthText (detail : Text) : Text :=
  Text.concat ["Exceeds the limit (", Text.numeral Text.maxDigits,
    " digits) for integer string conversion", detail,
    "; use sys.set_int_max_str_digits() to increase the limit"]

/-- The text of a failure. A value that a library refuses for its contents has none. -/
def message : Failure → Text
  | diagnosed d => d.message
  | notIterable found => Text.concat ["'", found.label, "' object is not iterable"]
  | nameNotText index found =>
    Text.concat ["sequence item ", Text.numeral index, ": expected str instance, ",
      found.label, " found"]
  | emptyComposite => []
  | referenceNotUnicode => []
  | numeralTooLong digits =>
    lengthText (Text.concat [": value has ", Text.numeral digits, " digits"])
  | integerTooLong => lengthText []

/-- A failure by a diagnostic with a location. -/
def located (location : Location) (cause : Cause) : Failure :=
  diagnosed ⟨cause, some location⟩

end Failure

end TreeTypes

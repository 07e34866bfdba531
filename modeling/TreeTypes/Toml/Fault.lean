import TreeTypes.Text.Quoted

/-!
# Why a text is not TOML

A reason, and the place in the text that it is about. The place is given by
what remained of the text there; its line and column are worked out once, for
the message. Keys and characters are shown as quoted texts, paths of keys as
tuples of them.

A text can also be TOML and still not be read, when it writes an integer with
more than `Text.maxDigits` decimal digits. That is no fault of the text and
has no place.

## Main definitions

* `Toml.Reason`, `Toml.Fault`: what is wrong, and where.
* `Toml.Stop`: what makes the reader stop.
-/

namespace TreeTypes.Toml

/-- The keys that lead from the document to a table or a value. -/
abbrev KeyPath := List Text

/-- A path of keys as messages show it. -/
def KeyPath.shown : KeyPath → Text
  | [key] => Text.concat ["(", key.quoted, ",)"]
  | path => Text.concat ["(", Text.join ", " (path.map Text.quoted), ")"]

/-- Why a text is not TOML. -/
inductive Reason
  -- Characters and strings
  | invalidCharacter (p : CodePoint)
  | illegalCharacter (p : CodePoint)
  | unterminatedString
  | expected (closing : Text)
  | backslash
  | hexadecimal
  | noCharacter
  -- Values
  | value
  | date
  | unclosedArray
  | unclosedTable
  | repeatedKey (key : Text)
  -- Keys and statements
  | keyPart
  | equalsSign
  | statement
  | lineEnd
  | tableEnd
  | arrayEnd
  -- What stands in the tables already
  | overwriting
  | declaredTwice (path : KeyPath)
  | redefinition (path : KeyPath)
  | immutable (path : KeyPath)
  deriving DecidableEq

/-- The words for a reason. -/
def Reason.text : Reason → Text
  | invalidCharacter p => Text.concat ["Found invalid character ", Text.quoted [p]]
  | illegalCharacter p => Text.concat ["Illegal character ", Text.quoted [p]]
  | unterminatedString => "Unterminated string"
  | expected closing => Text.concat ["Expected ", closing.quoted]
  | backslash => "Unescaped '\\' in a string"
  | hexadecimal => "Invalid hex value"
  | noCharacter => "Escaped character is not a Unicode scalar value"
  | value => "Invalid value"
  | date => "Invalid date or datetime"
  | unclosedArray => "Unclosed array"
  | unclosedTable => "Unclosed inline table"
  | repeatedKey key => Text.concat ["Duplicate inline table key ", key.quoted]
  | keyPart => "Invalid initial character for a key part"
  | equalsSign => "Expected '=' after a key in a key/value pair"
  | statement => "Invalid statement"
  | lineEnd => "Expected newline or end of document after a statement"
  | tableEnd => "Expected ']' at the end of a table declaration"
  | arrayEnd => "Expected ']]' at the end of an array declaration"
  | overwriting => "Cannot overwrite a value"
  | declaredTwice path => Text.concat ["Cannot declare ", path.shown, " twice"]
  | redefinition path => Text.concat ["Cannot redefine namespace ", path.shown]
  | immutable path => Text.concat ["Cannot mutate immutable namespace ", path.shown]

/-- A reason and its line and column, unless it is about the end of the text. -/
structure Fault where
  reason : Reason
  place : Option (Nat × Nat)
  deriving DecidableEq

/-- The description of a fault. -/
def Fault.text (fault : Fault) : Text :=
  let place : Text := match fault.place with
    | none => "end of document"
    | some (line, column) =>
      Text.concat ["line ", Text.numeral line, ", column ", Text.numeral column]
  Text.concat [fault.reason.text, " (at ", place, ")"]

/-- What makes the reader stop. -/
inductive Stop
  /-- A reason, and what remained of the text at its place. -/
  | malformed (reason : Reason) (rest : Text)
  /-- A decimal integer has this many digits, which are too many. -/
  | longNumeral (digits : Nat)

/-- What a step makes of the text: a result, with the rest of the text in it, or a stop. -/
abbrev Reading := Except Stop

/-- Stops at a place. -/
def stop {α : Type} (reason : Reason) (rest : Text) : Reading α := .error (.malformed reason rest)

/-- The result of a step that has no place of its own, or a stop at the given one. -/
def stopAt {α : Type} (rest : Text) : Except Reason α → Reading α
  | .ok a => .ok a
  | .error reason => stop reason rest

/-- Why a text is not read as TOML. -/
inductive Refusal
  | malformed (fault : Fault)
  | longNumeral (digits : Nat)
  deriving DecidableEq

/-- The refusal of a stop: its place in the whole text. -/
def Stop.refusal (whole : Text) : Stop → Refusal
  | malformed reason [] => .malformed ⟨reason, none⟩
  | malformed reason rest => .malformed ⟨reason, some (Text.lineAndColumn whole rest)⟩
  | longNumeral digits => .longNumeral digits

end TreeTypes.Toml

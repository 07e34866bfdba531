import TreeTypes.Datum.Basic

/-!
# Reading JSON

The reader works on what remains of the text. Each step either hands on a
value and the rest, or stops with a reason and the rest at the place that the
reason is about; the place's line and column are worked out once, at the end,
from how much of the text is left. A text can also be JSON and still not be
read, when it writes an integer with more than `Text.maxDigits` digits; such a
stop is about no place.

The format is JSON with the liberties that common readers take: `NaN`,
`Infinity` and `-Infinity` are numbers, a repeated key replaces the earlier
value in its place, and an escaped surrogate needs no partner. Two escapes
next to each other that form a surrogate pair are one character.

Values nest, so the reader recurses on a bound. A code point that is consumed
pays for at most two steps, entering a value and entering its items, so twice
the length of the text is enough, and what is left of the bound is never less
than what is left of the text.

## Main definitions

* `Json.Reason`, `Json.Fault`: why and where a text is not JSON.
* `Json.Refusal`: why a text is not read.
* `Json.read`: text to datum.
-/

namespace TreeTypes.Json

/-- Why a text is not JSON. -/
inductive Reason
  | byteOrderMark
  | value
  | propertyName
  | colon
  | comma
  | unterminatedString
  | controlCharacter
  | invalidEscape
  | invalidUnicodeEscape
  | extraData
  deriving DecidableEq

/-- The words for a reason. -/
def Reason.text : Reason → Text
  | byteOrderMark => "Unexpected UTF-8 BOM (decode using utf-8-sig)"
  | value => "Expecting value"
  | propertyName => "Expecting property name enclosed in double quotes"
  | colon => "Expecting ':' delimiter"
  | comma => "Expecting ',' delimiter"
  | unterminatedString => "Unterminated string starting at"
  | controlCharacter => "Invalid control character at"
  | invalidEscape => "Invalid \\escape"
  | invalidUnicodeEscape => "Invalid \\uXXXX escape"
  | extraData => "Extra data"

/-- A reason and its place, as the number of code points before it and as line and column. -/
structure Fault where
  reason : Reason
  line : Nat
  column : Nat
  offset : Nat
  deriving DecidableEq

/-- The description of a fault. -/
def Fault.text (fault : Fault) : Text :=
  Text.concat [fault.reason.text, ": line ", Text.numeral fault.line, " column ",
    Text.numeral fault.column, " (char ", Text.numeral fault.offset, ")"]

/-- What makes the reader stop. -/
inductive Stop
  /-- A reason, and what remained of the text at its place. -/
  | malformed (reason : Reason) (rest : Text)
  /-- An integer has this many digits, which are too many. -/
  | longNumeral (digits : Nat)

/-- What a step makes of the text: a result, with the rest of the text in it, or a stop. -/
abbrev Reading := Except Stop

/-- Stops at a place. -/
def stop {α : Type} (reason : Reason) (rest : Text) : Reading α := .error (.malformed reason rest)

/-! ## Blanks and numbers -/

/-- Space, tab, line feed and carriage return. -/
def isBlank (p : CodePoint) : Bool :=
  p = .char ' ' || p = .char '\t' || p = .char '\n' || p = .char '\r'

/-- The text from its first code point that is not blank. -/
def skipBlanks (text : Text) : Text := text.dropWhile isBlank

/-- A run of digits, if one stands here. -/
def digits? (text : Text) : Option (Text × Text) :=
  match text.takeWhile CodePoint.isDigit with
  | [] => none
  | digits => some (digits, text.dropWhile CodePoint.isDigit)

/-- The whole part of a number: a lone zero, or digits that do not begin with zero. -/
def whole? (text : Text) : Option (Text × Text) :=
  match text with
  | .char '0' :: rest => some ("0", rest)
  | _ => digits? text

/-- The digits after a decimal point; none if no digit follows the point. -/
def fraction (text : Text) : Text × Text :=
  match text with
  | .char '.' :: rest => (digits? rest).getD ([], text)
  | _ => ([], text)

/-- The exponent after its letter; `none` if it is incomplete. -/
def exponent (text : Text) : Option (Int × Text) :=
  match text with
  | .char c :: rest =>
    if c = 'e' || c = 'E' then
      match rest with
      | .char '-' :: rest => (digits? rest).map fun (d, r) => (-(Text.digitsValue d : Int), r)
      | .char '+' :: rest => (digits? rest).map fun (d, r) => ((Text.digitsValue d : Int), r)
      | _ => (digits? rest).map fun (d, r) => ((Text.digitsValue d : Int), r)
    else none
  | _ => none

/--
The longest number that stands here. With a fraction or an exponent it is a
float, and only without them it may be too long.
-/
def number (text : Text) : Reading (Datum × Text) :=
  let (negative, unsigned) := match text with
    | .char '-' :: rest => (true, rest)
    | _ => (false, text)
  match whole? unsigned with
  | none => stop .value text
  | some (digits, rest) =>
    let (places, rest) := fraction rest
    match exponent rest, places with
    | none, [] =>
      let n : Int := Text.digitsValue digits
      if Text.maxDigits < digits.length then .error (.longNumeral digits.length)
      else .ok (.int (if negative then -n else n), rest)
    | power, places =>
      let (scale, rest) := power.getD (0, rest)
      .ok (.float (Binary64.ofDecimal negative (Text.digitsValue (digits ++ places))
        (scale - places.length)), rest)

/-! ## Strings -/

/-- The number of four hexadecimal digits that are not the last of the text. -/
def codeUnit? : Text → Option (Nat × Text)
  | a :: b :: c :: d :: e :: rest =>
    match a.hexDigit?, b.hexDigit?, c.hexDigit?, d.hexDigit? with
    | some a, some b, some c, some d => some (((a * 16 + b) * 16 + c) * 16 + d, e :: rest)
    | _, _, _, _ => none
  | _ => none

/-- The second half of a surrogate pair, when its escape stands here. -/
def lowHalf? : Text → Option (Nat × Text)
  | .char '\\' :: .char 'u' :: rest =>
    match codeUnit? rest with
    | some (unit, rest) => if 0xDC00 ≤ unit && unit < 0xE000 then some (unit, rest) else none
    | none => none
  | _ => none

/-- The code point of a code unit and what follows it: a first half takes up its second half. -/
def pairUp (unit : Nat) (rest : Text) : CodePoint × Text :=
  let point (n : Nat) := (CodePoint.ofNat? n).getD (.char '\uFFFD')
  if 0xD800 ≤ unit && unit < 0xDC00 then
    match lowHalf? rest with
    | some (low, rest) => (point (0x10000 + (unit - 0xD800) * 0x400 + (low - 0xDC00)), rest)
    | none => (point unit, rest)
  else (point unit, rest)

/-- The code point of an escape with a single letter. -/
def shortEscape? (p : CodePoint) : Option CodePoint :=
  match p with
  | .char '"' => some (.char '"')
  | .char '\\' => some (.char '\\')
  | .char '/' => some (.char '/')
  | .char 'b' => some (.char '\x08')
  | .char 'f' => some (.char '\x0c')
  | .char 'n' => some (.char '\n')
  | .char 'r' => some (.char '\r')
  | .char 't' => some (.char '\t')
  | _ => none

/--
Reads a string after its opening quote. `opening` is the text from that quote,
where an unterminated string is reported; `fuel` bounds the code points.
-/
def string (opening : Text) : (fuel : Nat) → Text → Reading (Text × Text)
  | 0, _ => stop .unterminatedString opening
  | fuel + 1, text =>
    match text with
    | [] => stop .unterminatedString opening
    | .char '"' :: rest => .ok ([], rest)
    | .char '\\' :: rest =>
      match rest with
      | [] => stop .unterminatedString opening
      | .char 'u' :: digits =>
        match codeUnit? digits with
        | none => stop .invalidUnicodeEscape rest
        | some (unit, after) =>
          let (p, after) := pairUp unit after
          (string opening fuel after).map fun (tail, rest) => (p :: tail, rest)
      | letter :: after =>
        match shortEscape? letter with
        | none => stop .invalidEscape text
        | some p => (string opening fuel after).map fun (tail, rest) => (p :: tail, rest)
    | p :: after =>
      if p.val ≤ 0x1F then stop .controlCharacter text
      else (string opening fuel after).map fun (tail, rest) => (p :: tail, rest)

/-! ## Values -/

/-- The literals that are words. -/
def words : List (Text × Datum) :=
  [("null", .null), ("true", .bool true), ("false", .bool false), ("NaN", .float .nan),
   ("Infinity", .float (.infinite false)), ("-Infinity", .float (.infinite true))]

/-- A word that stands here. -/
def word? (text : Text) : Option (Datum × Text) :=
  words.findSome? fun (word, datum) =>
    if word.isPrefixOf text then some (datum, text.drop word.length) else none

mutual

/-- Reads a value at the very place, without blanks before it. -/
def value : (fuel : Nat) → Text → Reading (Datum × Text)
  | 0, text => stop .value text
  | fuel + 1, text =>
    match text with
    | .char '"' :: rest =>
      (string text fuel rest).map fun (t, rest) => (.text t, rest)
    | .char '[' :: rest =>
      match skipBlanks rest with
      | .char ']' :: rest => .ok (.array [], rest)
      | rest => (items fuel rest).map fun (list, rest) => (.array list, rest)
    | .char '\x7b' :: rest =>
      match skipBlanks rest with
      | .char '\x7d' :: rest => .ok (.object [], rest)
      | rest => (members fuel [] rest).map fun (list, rest) => (.object list, rest)
    | _ =>
      match word? text with
      | some result => .ok result
      | none => number text

/-- Reads the items of an array up to its closing bracket. -/
def items : (fuel : Nat) → Text → Reading (List Datum × Text)
  | 0, text => stop .value text
  | fuel + 1, text => do
    let (item, rest) ← value fuel text
    match skipBlanks rest with
    | .char ']' :: rest => .ok ([item], rest)
    | .char ',' :: rest =>
      let (list, rest) ← items fuel (skipBlanks rest)
      .ok (item :: list, rest)
    | rest => stop .comma rest

/-- Reads the members of an object up to its closing brace, after those read `before`. -/
def members : (fuel : Nat) → (before : List (Text × Datum)) → Text →
    Reading (List (Text × Datum) × Text)
  | 0, _, text => stop .propertyName text
  | fuel + 1, before, text =>
    match text with
    | .char '"' :: rest => do
      let (key, rest) ← string text fuel rest
      match skipBlanks rest with
      | .char ':' :: rest =>
        let (datum, rest) ← value fuel (skipBlanks rest)
        let all := Datum.insert key datum before
        match skipBlanks rest with
        | .char '\x7d' :: rest => .ok (all, rest)
        | .char ',' :: rest => members fuel all (skipBlanks rest)
        | rest => stop .comma rest
      | rest => stop .colon rest
    | _ => stop .propertyName text

end

/-! ## Whole texts -/

/-- Why a text is not read: it is not JSON, or writes an integer with this many digits. -/
inductive Refusal
  | malformed (fault : Fault)
  | longNumeral (digits : Nat)
  deriving DecidableEq

/-- The refusal of a stop: its place in the whole text. -/
def Stop.refusal (whole : Text) : Stop → Refusal
  | malformed reason rest =>
    let (line, column) := Text.lineAndColumn whole rest
    .malformed ⟨reason, line, column, whole.length - rest.length⟩
  | longNumeral digits => .longNumeral digits

/-- Reads a whole text: one value with blanks around it. -/
def document (text : Text) : Reading Datum :=
  match text with
  | .char '\uFEFF' :: _ => stop .byteOrderMark text
  | _ => do
    let (datum, rest) ← value (2 * text.length + 2) (skipBlanks text)
    match skipBlanks rest with
    | [] => .ok datum
    | rest => stop .extraData rest

/-- The datum that a text stands for, or why it is not read. -/
def read (text : Text) : Except Refusal Datum :=
  match document text with
  | .ok datum => .ok datum
  | .error s => .error (s.refusal text)

end TreeTypes.Json

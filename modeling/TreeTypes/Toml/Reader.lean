import TreeTypes.Toml.Table

/-!
# Reading TOML

Settings are written in TOML 1.0. The reader works on what remains of the
text: every step gives a result and the rest, or stops with a reason and the
rest at the place that the reason is about.

Of the format's values the settings use truth values and strings; the others
are read all the same, since a setting of the wrong kind is refused by the
name of its kind.

Values nest and lines follow each other, so the reader recurses on a bound
computed from the length of the text.

## Main definitions

* `Toml.value`: a value.
* `Toml.read`: a whole document.
-/

namespace TreeTypes.Toml

/-! ## Blanks and comments -/

/-- Space and tab. -/
def isBlank (p : CodePoint) : Bool := p = .char ' ' || p = .char '\t'

/-- Space, tab and line feed. -/
def isGap (p : CodePoint) : Bool := isBlank p || p = .char '\n'

/-- The text from its first code point that is not blank. -/
def skipBlanks (text : Text) : Text := text.dropWhile isBlank

/-- ASCII control characters other than the tab, which no line may hold. -/
def isControl (p : CodePoint) : Bool := (p.val < 32 && p.val ≠ 9) || p.val = 127

/-- ASCII control characters that a string over several lines may not hold. -/
def isControlInLines (p : CodePoint) : Bool := isControl p && p ≠ .char '\n'

/-- Stops at the first of the first `length` code points that may not stand there. -/
def refuseControls (isControl : CodePoint → Bool) (length : Nat) (text : Text) : Reading Unit :=
  match (text.take length).dropWhile (!isControl ·) with
  | [] => .ok ()
  | p :: rest => stop (.invalidCharacter p) (text.drop (length - (rest.length + 1)))

/-- Skips a comment up to the end of its line. -/
def skipComment (text : Text) : Reading Text :=
  match text with
  | .char '#' :: rest => do
    let length := (rest.takeWhile (· ≠ CodePoint.char '\n')).length
    refuseControls isControl length rest
    .ok (rest.drop length)
  | _ => .ok text

/-- Skips blanks, line feeds and comments, as inside an array. -/
def skipGaps : (fuel : Nat) → Text → Reading Text
  | 0, text => .ok text
  | fuel + 1, text =>
    match text.dropWhile isGap with
    | .char '#' :: rest => do skipGaps fuel (← skipComment (.char '#' :: rest))
    | rest => .ok rest

/-! ## Strings -/

/-- The character with a hexadecimal number of `width` digits; surrogates are not characters. -/
def hexCharacter (width : Nat) (text : Text) : Reading (CodePoint × Text) :=
  match (text.take width).mapM CodePoint.hexDigit? with
  | none => stop .hexadecimal text
  | some digits =>
    if digits.length = width then
      match (CodePoint.ofNat? (digits.foldl (16 * · + ·) 0)).bind CodePoint.char? with
      | some c => .ok (.char c, text.drop width)
      | none => stop .noCharacter (text.drop width)
    else stop .hexadecimal text

/-- The character of an escape, after its backslash. -/
def escape (text : Text) : Reading (CodePoint × Text) :=
  match text with
  | .char 'b' :: rest => .ok (.char '\x08', rest)
  | .char 't' :: rest => .ok (.char '\t', rest)
  | .char 'n' :: rest => .ok (.char '\n', rest)
  | .char 'f' :: rest => .ok (.char '\x0c', rest)
  | .char 'r' :: rest => .ok (.char '\r', rest)
  | .char '"' :: rest => .ok (.char '"', rest)
  | .char '\\' :: rest => .ok (.char '\\', rest)
  | .char 'u' :: rest => hexCharacter 4 rest
  | .char 'U' :: rest => hexCharacter 8 rest
  | _ => stop .backslash (text.drop 1)

/-- A string on one line with escapes, after its opening quote. -/
def basicString : (fuel : Nat) → Text → Reading (Text × Text)
  | 0, text => stop .unterminatedString text
  | fuel + 1, text =>
    match text with
    | [] => stop .unterminatedString []
    | .char '"' :: rest => .ok ([], rest)
    | .char '\\' :: rest => do
      let (p, rest) ← escape rest
      let (tail, rest) ← basicString fuel rest
      .ok (p :: tail, rest)
    | p :: rest =>
      if isControl p then stop (.illegalCharacter p) text
      else do
        let (tail, rest) ← basicString fuel rest
        .ok (p :: tail, rest)

/-- The number of code points before the first place where some text stands. -/
def distance? (closing : Text) : Text → Option Nat
  | [] => none
  | p :: rest =>
    if closing.isPrefixOf (p :: rest) then some 0 else (distance? closing rest).map (· + 1)

/-- A string without escapes, up to its closing quotes. -/
def literalString (isControl : CodePoint → Bool) (closing text : Text) : Reading (Text × Text) :=
  match distance? closing text with
  | none => stop (.expected closing) []
  | some length => do
    refuseControls isControl length text
    .ok (text.take length, text.drop (length + closing.length))

/-- What a backslash at the end of a line skips: the line end and the blanks around it. -/
def lineContinuation (text : Text) : Reading Text :=
  match skipBlanks text with
  | [] => .ok []
  | .char '\n' :: rest => .ok (rest.dropWhile isGap)
  | rest => stop .backslash rest

/-- A string over several lines with escapes, up to the first three quotes in a row. -/
def basicLines : (fuel : Nat) → Text → Reading (Text × Text)
  | 0, text => stop .unterminatedString text
  | fuel + 1, text =>
    match text with
    | [] => stop .unterminatedString []
    | .char '"' :: .char '"' :: .char '"' :: rest => .ok ([], rest)
    | .char '\\' :: rest =>
      if rest.head?.any isGap then do
        basicLines fuel (← lineContinuation rest)
      else do
        let (p, rest) ← escape rest
        let (tail, rest) ← basicLines fuel rest
        .ok (p :: tail, rest)
    | p :: rest =>
      if isControlInLines p then stop (.illegalCharacter p) text
      else do
        let (tail, rest) ← basicLines fuel rest
        .ok (p :: tail, rest)

/-- Up to two more quotes right after the closing three belong to the string. -/
def withExtraQuotes (quote : CodePoint) : Text × Text → Text × Text
  | (content, rest) =>
    let extra := (rest.take 2).takeWhile (· = quote)
    (content ++ extra, rest.drop extra.length)

/-- A line feed right after the opening three quotes does not belong to the string. -/
def dropFirstLineEnd : Text → Text
  | .char '\n' :: rest => rest
  | text => text

/-- A string on one line that stands here, if one does. -/
def shortString? (text : Text) : Option (Reading (Text × Text)) :=
  match text with
  | .char '"' :: rest => some (basicString (rest.length + 1) rest)
  | .char '\'' :: rest => some (literalString isControl "'" rest)
  | _ => none

/-- A string of any of the four forms that stands here, if one does. -/
def string? (text : Text) : Option (Reading (Text × Text)) :=
  match text with
  | .char '"' :: .char '"' :: .char '"' :: rest =>
    some ((basicLines (rest.length + 1) (dropFirstLineEnd rest)).map
      (withExtraQuotes (.char '"')))
  | .char '\'' :: .char '\'' :: .char '\'' :: rest =>
    some ((literalString isControlInLines "'''" (dropFirstLineEnd rest)).map
      (withExtraQuotes (.char '\'')))
  | _ => shortString? text

/-! ## Keys -/

/-- Letters, digits, hyphen and underscore, of ASCII. -/
def isBareKey (p : CodePoint) : Bool :=
  match p with
  | .char c => c.isAlphanum || c = '-' || c = '_'
  | .surrogate _ => false

/-- One part of a key: bare, or a string on one line. -/
def keyPart (text : Text) : Reading (Text × Text) :=
  match shortString? text with
  | some reading => reading
  | none =>
    match text.takeWhile isBareKey with
    | [] => stop .keyPart text
    | part => .ok (part, text.dropWhile isBareKey)

/-- A key of parts with dots between them, and the blanks after it. -/
def key : (fuel : Nat) → Text → Reading (KeyPath × Text)
  | 0, text => stop .keyPart text
  | fuel + 1, text => do
    let (part, rest) ← keyPart text
    match skipBlanks rest with
    | .char '.' :: rest =>
      let (parts, rest) ← key fuel (skipBlanks rest)
      .ok (part :: parts, rest)
    | rest => .ok ([part], rest)

/-! ## Moments -/

/-- Two digits with a value in a range. -/
def twoDigits? (low high : Nat) (text : Text) : Option (Nat × Text) :=
  match text with
  | a :: b :: rest => do
    let n := 10 * (← a.digit?) + (← b.digit?)
    if low ≤ n ∧ n ≤ high then some (n, rest) else none
  | _ => none

/-- The text after a given character. -/
def after? (c : Char) (text : Text) : Option Text :=
  match text with
  | p :: rest => if p = .char c then some rest else none
  | [] => none

/-- Skips a decimal point with digits after it, if there are any. -/
def skipFraction (text : Text) : Text :=
  match text with
  | .char '.' :: p :: rest => if p.isDigit then rest.dropWhile CodePoint.isDigit else text
  | _ => text

/-- Skips a time of day. -/
def skipTime? (text : Text) : Option Text := do
  let (_, rest) ← twoDigits? 0 23 text
  let (_, rest) ← twoDigits? 0 59 (← after? ':' rest)
  let (_, rest) ← twoDigits? 0 59 (← after? ':' rest)
  some (skipFraction rest)

/-- Skips the distance from universal time, if one stands here. -/
def skipOffset (text : Text) : Text :=
  let distance? (rest : Text) : Option Text := do
    let (_, rest) ← twoDigits? 0 23 rest
    let (_, rest) ← twoDigits? 0 59 (← after? ':' rest)
    some rest
  match text with
  | .char 'Z' :: rest => rest
  | .char 'z' :: rest => rest
  | .char '+' :: rest => (distance? rest).getD text
  | .char '-' :: rest => (distance? rest).getD text
  | _ => text

/-- The number of days of a month. -/
def daysIn (year month : Nat) : Nat :=
  if month = 2 then
    if year % 4 = 0 && (year % 100 ≠ 0 || year % 400 = 0) then 29 else 28
  else if month = 4 || month = 6 || month = 9 || month = 11 then 30
  else 31

/-- What stands at the beginning of a text where a date may. -/
inductive DateReading
  /-- Nothing of the form of a date. -/
  | absent
  /-- The form of a date, but no day of the calendar. -/
  | impossible
  | found (rest : Text)

/-- Reads a date in the years from 1 on. -/
def dateReading (text : Text) : DateReading :=
  let form : Option (Nat × Nat × Nat × Text) := do
    let (century, rest) ← twoDigits? 0 99 text
    let (year, rest) ← twoDigits? 0 99 rest
    let (month, rest) ← twoDigits? 1 12 (← after? '-' rest)
    let (day, rest) ← twoDigits? 1 31 (← after? '-' rest)
    some (100 * century + year, month, day, rest)
  match form with
  | none => .absent
  | some (year, month, day, rest) =>
    if 0 < year ∧ day ≤ daysIn year month then .found rest else .impossible

/-- After a date: the separator and a time make it a date with a time. -/
def momentAfterDate (rest : Text) : Moment × Text :=
  match rest with
  | p :: time =>
    if p = .char 'T' || p = .char 't' || p = .char ' ' then
      match skipTime? time with
      | some rest => (.dateTime, skipOffset rest)
      | none => (.date, rest)
    else (.date, rest)
  | [] => (.date, rest)

/-! ## Numbers -/

/-- A run of digits that may have single underscores between them; the underscores are dropped. -/
def digitRun (isDigit : CodePoint → Bool) : Text → Text × Text
  | [] => ([], [])
  | p :: rest =>
    if isDigit p then
      let (digits, after) := digitRun isDigit rest
      (p :: digits, after)
    else
      match p, rest with
      | .char '_', q :: rest' =>
        if isDigit q then
          let (digits, after) := digitRun isDigit rest'
          (q :: digits, after)
        else ([], p :: rest)
      | _, _ => ([], p :: rest)

/-- A run of digits that begins with a digit. -/
def digits? (isDigit : CodePoint → Bool) (text : Text) : Option (Text × Text) :=
  match text with
  | p :: _ => if isDigit p then some (digitRun isDigit text) else none
  | [] => none

/-- A hexadecimal, octal or binary integer, after its zero and its letter. -/
def radixInteger? (radix : Nat) (text : Text) : Option (Datum × Text) := do
  let isDigit (p : CodePoint) : Bool :=
    match p.hexDigit? with
    | some n => n < radix
    | none => false
  let (digits, rest) ← digits? isDigit text
  some (.int (digits.foldl (fun n p => radix * n + p.hexDigit?.getD 0) 0 : Nat), rest)

/-- The digits after a decimal point, if any. -/
def fraction (text : Text) : Text × Text :=
  match text with
  | .char '.' :: rest => (digits? CodePoint.isDigit rest).getD ([], text)
  | _ => ([], text)

/-- An exponent, if a complete one stands here. -/
def exponent? (text : Text) : Option (Int × Text) :=
  match text with
  | .char c :: rest =>
    if c = 'e' || c = 'E' then
      let (negative, unsigned) := match rest with
        | .char '-' :: rest => (true, rest)
        | .char '+' :: rest => (false, rest)
        | _ => (false, rest)
      (digits? CodePoint.isDigit unsigned).map fun (digits, rest) =>
        let n : Int := Text.digitsValue digits
        (if negative then -n else n, rest)
    else none
  | _ => none

/-- A decimal integer or float after its sign. An integer may be too long. -/
def decimal? (negative : Bool) (text : Text) : Option (Reading (Datum × Text)) := do
  let (whole, rest) ← match text with
    | .char '0' :: rest => some (("0" : Text), rest)
    | _ => digits? CodePoint.isDigit text
  let (places, rest) := fraction rest
  match exponent? rest, places with
  | none, [] =>
    let n : Int := Text.digitsValue whole
    some (if Text.maxDigits < whole.length then .error (.longNumeral whole.length)
      else .ok (.int (if negative then -n else n), rest))
  | power, places =>
    let (scale, rest) := power.getD (0, rest)
    some (.ok (.float (Binary64.ofDecimal negative (Text.digitsValue (whole ++ places))
      (scale - places.length)), rest))

/-- An infinity or not-a-number after its sign. -/
def specialFloat? (negative : Bool) (text : Text) : Option (Datum × Text) :=
  match text with
  | .char 'i' :: .char 'n' :: .char 'f' :: rest => some (.float (.infinite negative), rest)
  | .char 'n' :: .char 'a' :: .char 'n' :: rest => some (.float .nan, rest)
  | _ => none

/-- A number of any form that stands here, if one does. -/
def number? (text : Text) : Option (Reading (Datum × Text)) :=
  let (sign, unsigned) : Option Bool × Text := match text with
    | .char '+' :: rest => (some false, rest)
    | .char '-' :: rest => (some true, rest)
    | _ => (none, text)
  let negative := sign.getD false
  let radix : Option (Datum × Text) := match sign, unsigned with
    | none, .char '0' :: .char 'x' :: rest => radixInteger? 16 rest
    | none, .char '0' :: .char 'o' :: rest => radixInteger? 8 rest
    | none, .char '0' :: .char 'b' :: rest => radixInteger? 2 rest
    | _, _ => none
  radix.map .ok <|> decimal? negative unsigned <|> (specialFloat? negative unsigned).map .ok

/-! ## Values -/

/-- A truth value. -/
def truth? (text : Text) : Option (Datum × Text) :=
  if ("true" : Text).isPrefixOf text then some (.bool true, text.drop 4)
  else if ("false" : Text).isPrefixOf text then some (.bool false, text.drop 5)
  else none

/-- A moment or a number. -/
def momentOrNumber (text : Text) : Reading (Datum × Text) :=
  match dateReading text with
  | .impossible => stop .date text
  | .found rest =>
    let (moment, rest) := momentAfterDate rest
    .ok (.moment moment, rest)
  | .absent =>
    match skipTime? text with
    | some rest => .ok (.moment .time, rest)
    | none => (number? text).getD (stop .value text)

mutual

/-- Reads a value. -/
def value : (fuel : Nat) → Text → Reading (Datum × Text)
  | 0, text => stop .value text
  | fuel + 1, text =>
    match string? text with
    | some reading => reading.map fun (t, rest) => (.text t, rest)
    | none =>
      match text with
      | .char '[' :: rest => do
        match ← skipGaps fuel rest with
        | .char ']' :: rest => .ok (.array [], rest)
        | rest => (items fuel rest).map fun (list, rest) => (.array list, rest)
      | .char '\x7b' :: rest =>
        match skipBlanks rest with
        | .char '\x7d' :: rest => .ok (.object [], rest)
        | rest => (inlineTable fuel [] [] rest).map fun (table, rest) => (.object table, rest)
      | _ =>
        match truth? text with
        | some result => .ok result
        | none => momentOrNumber text

/-- Reads the items of an array up to its closing bracket; a comma may stand before that. -/
def items : (fuel : Nat) → Text → Reading (List Datum × Text)
  | 0, text => stop .unclosedArray text
  | fuel + 1, text => do
    let (item, rest) ← value fuel text
    match ← skipGaps fuel rest with
    | .char ']' :: rest => .ok ([item], rest)
    | .char ',' :: rest =>
      match ← skipGaps fuel rest with
      | .char ']' :: rest => .ok ([item], rest)
      | rest =>
        let (list, rest) ← items fuel rest
        .ok (item :: list, rest)
    | rest => stop .unclosedArray rest

/-- Reads the members of an inline table up to its closing brace. -/
def inlineTable : (fuel : Nat) → Table → (frozen : List KeyPath) → Text → Reading (Table × Text)
  | 0, _, _, text => stop .unclosedTable text
  | fuel + 1, table, frozen, text => do
    let (path, datum, rest) ← assignment fuel text
    if coveredBy frozen path then stop (.immutable path) rest
    else
      let stem := path.getLastD []
      let table ← stopAt rest
        (updateTable false (addMember (.repeatedKey stem) stem datum) path.dropLast table)
      match skipBlanks rest with
      | .char '\x7d' :: rest => .ok (table, rest)
      | .char ',' :: rest =>
        inlineTable fuel table (if isComposite datum then path :: frozen else frozen)
          (skipBlanks rest)
      | rest => stop .unclosedTable rest

/-- Reads a key, an equals sign and a value. -/
def assignment : (fuel : Nat) → Text → Reading (KeyPath × Datum × Text)
  | 0, text => stop .value text
  | fuel + 1, text => do
    let (path, rest) ← key (text.length + 1) text
    match rest with
    | .char '=' :: rest =>
      let (datum, rest) ← value fuel (skipBlanks rest)
      .ok (path, datum, rest)
    | _ => stop .equalsSign rest

end

/-! ## Documents -/

/--
A table header, after its brackets have been opened. The table is opened
before the header is closed.
-/
def header (opening : KeyPath → Except Reason Builder) (closing : Text) (unclosed : Reason)
    (text : Text) : Reading (Builder × Text) := do
  let (path, rest) ← key (text.length + 1) (skipBlanks text)
  let b ← stopAt rest (opening path)
  if closing.isPrefixOf rest then .ok (b, rest.drop closing.length) else stop unclosed rest

/-- One statement; a line that begins with a comment or is empty has none. -/
def statement (b : Builder) (text : Text) : Reading (Builder × Text) :=
  match text with
  | [] => .ok (b, [])
  | .char '\n' :: _ => .ok (b, text)
  | .char '#' :: _ => .ok (b, text)
  | .char '[' :: .char '[' :: rest => header b.appendTable "]]" .arrayEnd rest
  | .char '[' :: rest => header b.openTable "]" .tableEnd rest
  | p :: _ =>
    if isBareKey p || p = .char '"' || p = .char '\'' then do
      let (path, datum, rest) ← assignment (4 * text.length + 4) text
      .ok (← stopAt rest (b.assign path datum), rest)
    else stop .statement text

/-- Reads line after line. -/
def lines : (fuel : Nat) → Builder → Text → Reading Builder
  | 0, b, _ => .ok b
  | fuel + 1, b, text => do
    let (b, rest) ← statement b (skipBlanks text)
    match ← skipComment (skipBlanks rest) with
    | [] => .ok b
    | .char '\n' :: rest => lines fuel b rest
    | rest => stop .lineEnd rest

/-- The table that a text stands for, or why it is not read. -/
def read (text : Text) : Except Refusal Table :=
  match lines (text.length + 1) {} text with
  | .ok b => .ok b.root
  | .error s => .error (s.refusal text)

end TreeTypes.Toml

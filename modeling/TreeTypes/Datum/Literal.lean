import TreeTypes.Datum.Basic
import TreeTypes.Decimal.Shortest
import TreeTypes.Text.Quoted

/-!
# Data written into messages

A message that refuses a datum shows it: `None`, `True`, `-3`, `1e+16`,
`'text'`, `[1, 'a']`, `{'type': 'PATTERN'}`. Arrays and objects show their
contents in order. An integer with more than `Text.maxDigits` digits cannot be
shown, and neither can a datum that holds one; what wants to show it fails.
-/

namespace TreeTypes.Datum

/--
Numbers are positional from `0.0001` to below `10 ^ 16`; otherwise they have an
exponent with its sign and at least two digits.
-/
def numberLayout : Decimal.Layout := ⟨-4, 16, 2⟩

/-- An integer has more digits than can be shown. -/
def isTooLong (n : Int) : Bool := Text.maxDigits < (Text.numeral n.natAbs).length

mutual

/-- The text of a datum, if it can be shown. A moment shows its kind. -/
def literal : Datum → Option Text
  | null => some "None"
  | bool value => some (if value then "True" else "False")
  | int value => if isTooLong value then none else some (Text.integer value)
  | float value => some (numberLayout.text value)
  | text value => some value.quoted
  | moment value => some (Kind.moment value).label
  | array items => (itemLiterals items).map fun texts =>
    Text.concat ["[", Text.join ", " texts, "]"]
  | object members => (memberLiterals members).map fun texts =>
    Text.concat ["\x7b", Text.join ", " texts, "\x7d"]

/-- The texts of the items. -/
def itemLiterals : List Datum → Option (List Text)
  | [] => some []
  | item :: rest => do return (← literal item) :: (← itemLiterals rest)

/-- The texts of the members, each a quoted key, a colon and a value. -/
def memberLiterals : List (Text × Datum) → Option (List Text)
  | [] => some []
  | (key, value) :: rest => do
    let shown ← literal value
    return Text.concat [key.quoted, ": ", shown] :: (← memberLiterals rest)

end

/-- The text of a datum that may be missing. -/
def literal? (datum : Option Datum) : Option Text := (datum.getD null).literal

end TreeTypes.Datum

/-!
# Text as a list of code points

Names of rules, messages and rendered declarations are all text, and text
here is a list of **code points**. Two things decide against `String`:

* A document may hold a *lone surrogate*: the escape `\ud800` is accepted
  inside a JSON string although no character stands behind it. A rule may bear
  such a name. No reference may, so hoisting fails where it has to refer to a
  rule that it names after such an owner; otherwise the name travels on and
  fails when the result is written out as UTF-8. `String` cannot hold it, so a
  code point is either a character or one of the 2048 surrogates.
* Every law about names is a law about lists: a numbered name splits at its
  last underscore, a rendered block is read back from the left, an order is
  decided at the first difference.

A `String` literal is read as text wherever text is expected, so messages
stay readable in the definitions that build them.

## Main definitions

* `CodePoint`, `Text`: the carrier.
* `Text.isUnicode`: the text is made of characters.
* `Text.le`, `Text.sorted`: the order by code point.
* `Text.numeral`: the decimal digits of a number, and `Text.maxDigits` of them.
* `Text.join`: pieces put together with a separator.
-/

namespace TreeTypes

/--
A Unicode code point: a character, or a surrogate given by its distance from
`U+D800`.
-/
inductive CodePoint
  | char (c : Char)
  | surrogate (offset : Fin 2048)
  deriving DecidableEq, Inhabited

namespace CodePoint

/-- The number of a code point. -/
def val : CodePoint → Nat
  | char c => c.toNat
  | surrogate offset => 0xD800 + offset.val

/-- The code point with a given number, if there is one. -/
def ofNat? (n : Nat) : Option CodePoint :=
  if h : n.isValidChar then some (char (Char.ofNatAux n h))
  else if h : 0xD800 ≤ n ∧ n < 0xE000 then some (surrogate ⟨n - 0xD800, by omega⟩)
  else none

instance : Coe Char CodePoint := ⟨char⟩

/-- The character of a code point, unless it is a surrogate. -/
def char? : CodePoint → Option Char
  | char c => some c
  | surrogate _ => none

/-- One of the ten ASCII digits. -/
def isDigit (p : CodePoint) : Bool := 0x30 ≤ p.val && p.val ≤ 0x39

/-- The value of an ASCII digit. -/
def digit? (p : CodePoint) : Option Nat := if p.isDigit then some (p.val - 0x30) else none

/-- The value of an ASCII hexadecimal digit of either case. -/
def hexDigit? (p : CodePoint) : Option Nat :=
  let n := p.val
  if 0x30 ≤ n && n ≤ 0x39 then some (n - 0x30)
  else if 0x41 ≤ n && n ≤ 0x46 then some (n - 0x41 + 10)
  else if 0x61 ≤ n && n ≤ 0x66 then some (n - 0x61 + 10)
  else none

end CodePoint

/-- A text: code points from left to right. -/
abbrev Text := List CodePoint

/-- Comparing texts decides their equality. -/
instance Text.lawfulBEq : LawfulBEq Text := inferInstance

namespace Text

/-- The text of a string. -/
def ofString (s : String) : Text := s.toList.map .char

instance : Coe String Text := ⟨ofString⟩

/-- The text is made of characters: it holds no surrogate. -/
def isUnicode (text : Text) : Bool := text.all (·.char?.isSome)

/-- The pieces one after another. -/
def concat (pieces : List Text) : Text := pieces.flatten

/-- The pieces with a separator between neighbours. -/
def join (separator : Text) (pieces : List Text) : Text := pieces.intersperse separator |>.flatten

/-- The decimal digits of a number, without leading zeros. -/
def numeral (n : Nat) : Text := (Nat.toDigits 10 n).map .char

/-- The decimal digits of an integer, after a minus sign if it is negative. -/
def integer : Int → Text
  | .ofNat n => numeral n
  | .negSucc n => CodePoint.char '-' :: numeral (n + 1)

@[simp] theorem integer_natCast (n : Nat) : integer n = numeral n := rfl

/-- An integer with more decimal digits is neither read nor shown. -/
def maxDigits : Nat := 4300

/-- The hexadecimal digits of a number in lower case, filled up with zeros to a width. -/
def hexadecimal (width n : Nat) : Text :=
  let digits : Text := (Nat.toDigits 16 n).map .char
  List.replicate (width - digits.length) (CodePoint.char '0') ++ digits

/-- The number that a run of decimal digits stands for; other code points count as zero. -/
def digitsValue (digits : Text) : Nat :=
  digits.foldl (fun value p => 10 * value + p.digit?.getD 0) 0

/--
The line and the column, both from one, of the place in a text at which a given
rest of it begins.
-/
def lineAndColumn (whole rest : Text) : Nat × Nat :=
  let before := whole.take (whole.length - rest.length)
  let lastLine := before.reverse.takeWhile (· ≠ CodePoint.char '\n')
  (before.count (.char '\n') + 1, lastLine.length + 1)

/-! ## Order -/

/--
The order by code point: the first difference decides, and a proper beginning
comes before the whole.
-/
def le : Text → Text → Bool
  | [], _ => true
  | _ :: _, [] => false
  | p :: s, q :: t => if p = q then le s t else p.val < q.val

/-- The texts in the order by code point. -/
def sorted (texts : List Text) : List Text := texts.mergeSort le

/-! ## Repetitions -/

/-- The members of a list without those that stood earlier in it. -/
def distinct : List Text → List Text
  | [] => []
  | t :: rest => t :: (distinct rest).filter (· ≠ t)

end Text

end TreeTypes

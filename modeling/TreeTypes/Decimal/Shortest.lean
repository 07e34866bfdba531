import TreeTypes.Decimal.Binary64
import TreeTypes.Text.Basic

/-!
# Shortest decimal form

A floating-point number is written with the fewest significant digits that
read back as the same number, and among those with the digits nearest to it.
The search is by exact arithmetic: for one digit, two digits and so on, the
two neighbours of the number on that decimal grid are tested against the
interval of reals that round to it. Seventeen digits always suffice.

How the digits are laid out, positionally or with an exponent, is a decision
of whoever writes the number; it is the record `Layout`.
-/

namespace TreeTypes.Decimal

/-- The decimal `digits · 10 ^ exponent`, written with `digits` from left to right. -/
structure Digits where
  digits : Nat
  exponent : Int

/--
The interval of reals that round to `mantissa · 2 ^ exponent`, in units of
`2 ^ (exponent - 2)`: the number lies at `4 · mantissa`, and the distance to
the next lower number is half as large at a power of two. The ends belong to
it when the mantissa is even.
-/
structure Interval where
  low : Nat
  middle : Nat
  high : Nat
  closed : Bool

/-- The rounding interval of a positive number. -/
def Interval.of (mantissa : Nat) (exponent : Int) : Interval :=
  let below := if mantissa = 1 <<< 52 && -1074 < exponent then 1 else 2
  ⟨4 * mantissa - below, 4 * mantissa, 4 * mantissa + 2, mantissa % 2 = 0⟩

/-- The numerator and denominator of `10 ^ decimal / 2 ^ (exponent - 2)`. -/
def gridStep (decimal exponent : Int) : Nat × Nat :=
  let unit := exponent - 2
  (Nat.pow 10 decimal.toNat * Nat.pow 2 (-unit).toNat,
    Nat.pow 10 (-decimal).toNat * Nat.pow 2 unit.toNat)

/-- The grid point `n` lies in the interval. -/
def Interval.contains (interval : Interval) (step : Nat × Nat) (n : Nat) : Bool :=
  let (a, b) := step
  let point := n * a
  if interval.closed then interval.low * b ≤ point && point ≤ interval.high * b
  else interval.low * b < point && point < interval.high * b

/--
The better one of the number's two neighbours on a grid, if any lies in the
interval: the nearer one, and of two equally near ones the even one.
-/
def nearestOnGrid (interval : Interval) (step : Nat × Nat) : Option Nat :=
  let (a, b) := step
  let lower := interval.middle * b / a
  let upper := lower + 1
  match interval.contains step lower, interval.contains step upper with
  | true, false => some lower
  | false, true => some upper
  | false, false => none
  | true, true =>
    let toLower := interval.middle * b - lower * a
    let toUpper := upper * a - interval.middle * b
    if toLower < toUpper then some lower
    else if toUpper < toLower then some upper
    else if lower % 2 = 0 then some lower else some upper

/-- The least `k` up to `fuel` with `d ≤ n · 10 ^ k`. -/
def scaleUp (d : Nat) : (fuel n : Nat) → Nat
  | 0, _ => 0
  | fuel + 1, n => if d ≤ n then 0 else scaleUp d fuel (n * 10) + 1

/-- The power of ten of the leading digit of a positive number. -/
def leadingExponent (mantissa : Nat) (exponent : Int) : Int :=
  let n := mantissa * Nat.pow 2 exponent.toNat
  let d := Nat.pow 2 (-exponent).toNat
  if d ≤ n then ((Nat.toDigits 10 (n / d)).length : Int) - 1
  else -(scaleUp d 400 n : Int)

/-- Tries grids from `count` significant digits on, at most `fuel` of them. -/
def searchGrids (interval : Interval) (leading exponent : Int) : (fuel count : Nat) → Digits
  | 0, _ => ⟨0, 0⟩
  | fuel + 1, count =>
    let place := leading + 1 - count
    match nearestOnGrid interval (gridStep place exponent) with
    | some digits => ⟨digits, place⟩
    | none => searchGrids interval leading exponent fuel (count + 1)

/-- The shortest decimal that reads back as the positive number `mantissa · 2 ^ exponent`. -/
def shortest (mantissa : Nat) (exponent : Int) : Digits :=
  searchGrids (Interval.of mantissa exponent) (leadingExponent mantissa exponent) exponent 17 1

/--
How a number is laid out: it is written positionally when the power of ten of
its leading digit is at least `leastPositional` and less than
`leastScientific`, and otherwise with an exponent of a sign and at least
`exponentDigits` digits. A positional whole number gets the fraction `.0`.
-/
structure Layout where
  leastPositional : Int
  leastScientific : Int
  exponentDigits : Nat

/-- A text without the zeros at its end. -/
def dropTrailingZeros (text : Text) : Text :=
  (text.reverse.dropWhile (· = CodePoint.char '0')).reverse

/-- The exponent part. -/
def Layout.exponent (layout : Layout) (power : Int) : Text :=
  let digits := Text.numeral power.natAbs
  Text.concat ["e", if power < 0 then "-" else "+",
    List.replicate (layout.exponentDigits - digits.length) (.char '0'), digits]

/-- Lays out significant digits whose first has the given power of ten. -/
def Layout.write (layout : Layout) (digits : Text) (power : Int) : Text :=
  if layout.leastPositional ≤ power && power < layout.leastScientific then
    if power < 0 then
      Text.concat ["0.", List.replicate (-power - 1).toNat (.char '0'), digits]
    else
      let whole := power.toNat + 1
      let padded := digits ++ List.replicate (whole - digits.length) (CodePoint.char '0')
      let fraction := padded.drop whole
      Text.concat [padded.take whole, ".", if fraction.isEmpty then "0" else fraction]
  else
    let fraction := digits.drop 1
    Text.concat [digits.take 1, if fraction.isEmpty then "" else ".", fraction,
      layout.exponent power]

/-- The text of a number in its shortest decimal form. -/
def Layout.text (layout : Layout) : Binary64 → Text
  | .nan => "nan"
  | .infinite negative => if negative then "-inf" else "inf"
  | .finite negative mantissa exponent =>
    let sign : Text := if negative then "-" else ""
    if mantissa = 0 then sign ++ "0.0"
    else
      let decimal := shortest mantissa exponent
      let digits := Text.numeral decimal.digits
      sign ++ layout.write (dropTrailingZeros digits)
        (decimal.exponent + (digits.length : Int) - 1)

end TreeTypes.Decimal

/-!
# Binary floating-point numbers, exactly

A number with a fraction or an exponent in a document is a 64-bit binary
floating-point number. The program does no arithmetic with it: it reads one
from decimal digits, asks whether it is zero, and writes it into a message. So
the type here is not the machine's, of which nothing could be proved, but the
value itself, a mantissa times a power of two; reading is one exact division
rounded half to even.

## Main definitions

* `Binary64`: not a number, an infinity, or a signed `mantissa · 2 ^ exponent`.
* `Binary64.ofDecimal`: the number nearest to `digits · 10 ^ exponent`.
-/

namespace TreeTypes

/--
A binary floating-point number. A finite one has a mantissa below `2 ^ 53` and
an exponent from `-1074` to `971`, and is in normal form: its mantissa is at
least `2 ^ 52`, or its exponent is the least.
-/
inductive Binary64
  | nan
  | infinite (negative : Bool)
  | finite (negative : Bool) (mantissa : Nat) (exponent : Int)
  deriving DecidableEq

namespace Binary64

/-- Zero of either sign. -/
def isZero : Binary64 → Bool
  | finite _ mantissa _ => mantissa = 0
  | _ => false

/-- A quotient rounded to the nearest integer, a half to the even neighbour. -/
def roundedQuotient (numerator denominator : Nat) : Nat :=
  let quotient := numerator / denominator
  let twice := 2 * (numerator % denominator)
  if twice < denominator then quotient
  else if denominator < twice then quotient + 1
  else quotient + quotient % 2

/-- The pair `(a, b)` with `a / b = n / d · 2 ^ (-exponent)`. -/
def scaled (n d : Nat) (exponent : Int) : Nat × Nat :=
  match exponent with
  | .ofNat e => (n, d <<< e)
  | .negSucc e => (n <<< (e + 1), d)

/--
The exponent at which the positive quotient `n / d` has a mantissa of 53
bits, but never less than `-1074`. The two logarithms leave one of two
candidates; the mantissa at the larger one decides.
-/
def exponentFor (n d : Nat) : Int :=
  let candidate : Int := (n.log2 : Int) - (d.log2 : Int) - 52
  let (a, b) := scaled n d candidate
  max (-1074) (if a < b <<< 52 then candidate - 1 else candidate)

/-- The number nearest to the positive quotient `n / d`. -/
def ofQuotient (negative : Bool) (n d : Nat) : Binary64 :=
  let exponent := exponentFor n d
  let (a, b) := scaled n d exponent
  let rounded := roundedQuotient a b
  let (mantissa, exponent) :=
    if rounded = 1 <<< 53 then (1 <<< 52, exponent + 1) else (rounded, exponent)
  if 971 < exponent then infinite negative else finite negative mantissa exponent

/--
The number nearest to `digits · 10 ^ exponent`. Beyond 400 places on either
side the answer is an infinity or zero whatever the digits are, so no power of
ten is formed for those.
-/
def ofDecimal (negative : Bool) (digits : Nat) (exponent : Int) : Binary64 :=
  let places : Int := (Nat.toDigits 10 digits).length + exponent
  if digits = 0 || places < -400 then finite negative 0 (-1074)
  else if 400 < places then infinite negative
  else
    match exponent with
    | .ofNat e => ofQuotient negative (digits * Nat.pow 10 e) 1
    | .negSucc e => ofQuotient negative digits (Nat.pow 10 (e + 1))

end Binary64

end TreeTypes

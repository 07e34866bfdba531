import TreeTypes.Text.Basic
import TreeTypes.Text.Uppercase.Table

/-!
# Upper-casing

Constructors of a declaration carry the upper-cased name of their rule, so
upper-casing decides which constructor names collide. It is the full mapping
of the Unicode standard, applied code point by code point and without regard
to a locale: `ß` becomes `SS`, `ﬁ` becomes `FI`. ASCII is answered by
arithmetic; everything else is looked up in the tables.

## Main definitions

* `CodePoint.uppercase`: the upper-case form of one code point, a text.
* `Text.uppercase`: a text with every code point replaced by its form.
-/

namespace TreeTypes

open Text.Uppercase in
/-- The upper-case form of the code point with number `n`, above ASCII, as numbers. -/
def CodePoint.uppercaseValues (n : Nat) : List Nat :=
  match expansions.find? (·.source = n) with
  | some expansion => expansion.target
  | none =>
    match runs.find? (fun run =>
        run.first ≤ n && n ≤ run.last && (n - run.first) % run.step = 0) with
    | some run => [(n + run.shift).toNat]
    | none => [n]

/-- The upper-case form of a code point. -/
def CodePoint.uppercase : CodePoint → Text
  | .char c =>
    if c.toNat < 128 then [.char c.toUpper]
    else (uppercaseValues c.toNat).filterMap ofNat?
  | .surrogate offset => [.surrogate offset]

/-- A text with every code point replaced by its upper-case form. -/
def Text.uppercase (text : Text) : Text := text.flatMap CodePoint.uppercase

end TreeTypes

import TreeTypes.Text.Basic
import TreeTypes.Text.Printable.Table

/-!
# Printable code points

A text shown inside a message keeps the code points that print as themselves;
the others are written as escapes. Which are which is a property of the
Unicode standard, held as ranges in the table.
-/

namespace TreeTypes

/-- A code point that is shown as itself inside a quoted text. -/
def CodePoint.isPrintable (p : CodePoint) : Bool :=
  if p.val < 127 then 32 ≤ p.val
  else !(Text.Printable.hidden.any fun range => range.first ≤ p.val && p.val ≤ range.last)

end TreeTypes

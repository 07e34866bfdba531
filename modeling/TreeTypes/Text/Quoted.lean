import TreeTypes.Text.Printable

/-!
# Quoted text

Messages quote the values they complain about. A quoted text stands between
single quotes, or between double quotes when it holds a single quote and no
double one. The quote that is in use and the backslash are escaped by a
backslash; line feed, carriage return and tab have short escapes; any other
code point that does not print as itself is written by its number in two,
four or eight lower-case hexadecimal digits.
-/

namespace TreeTypes.Text

/-- The quote that a text is written between. -/
def quoteFor (text : Text) : CodePoint :=
  if text.contains (.char '\'') && !text.contains (.char '"') then .char '"' else .char '\''

/-- The escape of a code point by its number, in the fewest of two, four or eight digits. -/
def numberEscape (n : Nat) : Text :=
  if n < 0x100 then "\\x" ++ hexadecimal 2 n
  else if n < 0x10000 then "\\u" ++ hexadecimal 4 n
  else "\\U" ++ hexadecimal 8 n

/-- One code point as it stands between quotes. -/
def quotedPoint (quote p : CodePoint) : Text :=
  if p = quote || p = .char '\\' then [.char '\\', p]
  else if p = .char '\n' then "\\n"
  else if p = .char '\r' then "\\r"
  else if p = .char '\t' then "\\t"
  else if p.isPrintable then [p]
  else numberEscape p.val

/-- A text between quotes, with escapes. -/
def quoted (text : Text) : Text :=
  let quote := quoteFor text
  quote :: text.flatMap (quotedPoint quote) ++ [quote]

end TreeTypes.Text

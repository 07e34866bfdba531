import TreeTypes.FileAccess
import TreeTypes.Log

/-!
# What a terminal shows

A run hands lines to libraries that show them. What these make of a line is
their business and depends on where it is shown: codes for emojis are
replaced, tabs are expanded, lines are broken at the width of the terminal. A
`Terminal` stands for all of that, so whatever is said about a run is said for
every way of showing a line.

Only what happens to the block of declarations matters to the program's
purpose. It is shown as it is where somebody watches, and freed of the
sequences that switch colours where nobody does.

## Main definitions

* `Terminal`: how lines are shown.
* `Text.stripEscapes`: a text without escape sequences.
* `Terminal.plain`: plain lines without times.
-/

namespace TreeTypes

/-! ## Escape sequences -/

namespace Text

/-- A letter, which ends an escape sequence. -/
def isEscapeEnd (p : CodePoint) : Bool :=
  match p with
  | .char c => c.isAlpha
  | .surrogate _ => false

/-- A code point between the opening bracket of an escape sequence and its letter. -/
def isEscapeMiddle (p : CodePoint) : Bool :=
  p.isDigit || p = .char ';' || p = .char '?'

/--
The length of what follows the escape character in an escape sequence: a
bracket, any digits, semicolons and question marks, and a letter.
-/
def escapeLength? (text : Text) : Option Nat :=
  match text with
  | .char '[' :: rest =>
    let middle := rest.takeWhile isEscapeMiddle
    match rest.drop middle.length with
    | p :: _ => if isEscapeEnd p then some (middle.length + 2) else none
    | [] => none
  | _ => none

/-- A text without escape sequences, where some code points are still to be skipped. -/
def stripEscapesFrom : (skip : Nat) → Text → Text
  | _, [] => []
  | skip + 1, _ :: rest => stripEscapesFrom skip rest
  | 0, p :: rest =>
    match if p = .char '\x1b' then escapeLength? rest else none with
    | some length => stripEscapesFrom length rest
    | none => p :: stripEscapesFrom 0 rest

/-- A text without escape sequences. -/
def stripEscapes (text : Text) : Text := stripEscapesFrom 0 text

end Text

/-! ## Terminals -/

/-- How the lines of a run are shown. -/
structure Terminal where
  /-- Somebody watches the standard output. -/
  isWatched : Bool
  /-- A line about a diagnostic as it is shown, with its end. -/
  diagnostic : Text → Text
  /-- A line about an output that cannot be written as it is shown, with its end. -/
  unwritable : Text → Text
  /-- The time of the record with this number. -/
  stamp : Nat → Text
  /-- What is shown instead of the record with this number if it cannot be put into words. -/
  complaint : Nat → Text

namespace Terminal

/-- A block of declarations as it appears on the standard output. -/
def block (t : Terminal) (text : Text) : Text :=
  if t.isWatched then text else text.stripEscapes

/-- Records as lines, one after another; the first has the given number. -/
def linesFrom (t : Terminal) : (number : Nat) → Log → Text
  | _, [] => []
  | number, record :: rest =>
    record.line (t.stamp number) (t.complaint number) ++ t.linesFrom (number + 1) rest

/-- The records that a run shows. -/
def notes (t : Terminal) (details : Bool) (log : Log) : Text :=
  Text.escapeSurrogates (t.linesFrom 0 (log.shown details))

/-! ## A plain terminal -/

/-- A control character that is not shown. -/
def isUnshown (p : CodePoint) : Bool :=
  p = .char '\x07' || p = .char '\x08' || p = .char '\x0b' || p = .char '\x0c' || p = .char '\r'

/-- Replaces tabs by blanks up to the next column that is a multiple of eight. -/
def expandTabs : (column : Nat) → Text → Text
  | _, [] => []
  | column, p :: rest =>
    if p = .char '\t' then
      let width := 8 - column % 8
      List.replicate width (CodePoint.char ' ') ++ expandTabs (column + width) rest
    else if p = .char '\n' then p :: expandTabs 0 rest
    else p :: expandTabs (column + 1) rest

/-- A line without control characters and tabs. -/
def plainLine (line : Text) : Text :=
  Text.escapeSurrogates (expandTabs 0 (line.filter (!isUnshown ·))) ++ "\n"

/-- Plain lines on a stream that nobody watches, with a given time. -/
def plain (stamp : Text) : Terminal where
  isWatched := false
  diagnostic := plainLine
  unwritable := plainLine
  stamp _ := stamp
  complaint _ := []

end Terminal

end TreeTypes

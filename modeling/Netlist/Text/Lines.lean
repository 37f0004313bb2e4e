/-
Lines and columns.

A byte offset is turned into a line and a column by walking down the lines of a text. Each
line counts its characters and one byte for the line break, the last line too, so that an
offset beyond the end of the text still has a place: it runs on below the last line.
-/
import Netlist.Text.Bytes

set_option autoImplicit false

namespace Netlist.Text

/-- A line and a column, both counted from zero. -/
structure LineCol where
  line : Nat
  column : Nat
deriving DecidableEq

/-- People count lines and columns from one. -/
instance : ToString LineCol where
  toString p := s!"{p.line + 1}:{p.column + 1}"

/-- The lengths in bytes of the lines of a text of which `read` bytes of the current line
are behind us. Line breaks count, and the end of the text counts as one. -/
def lineLengthsFrom (read : Nat) : List Char → List Nat
  | [] => [read + 1]
  | c :: cs =>
    if c = '\n' then (read + 1) :: lineLengthsFrom 0 cs
    else lineLengthsFrom (read + c.utf8Size) cs

/-- The lengths in bytes of the lines of a text. -/
def lineLengths (cs : List Char) : List Nat :=
  lineLengthsFrom 0 cs

/-- Walks down lines of the given lengths, starting at line `line` with `column` bytes to go. -/
def walkLines : List Nat → Nat → Nat → LineCol
  | [], line, column => ⟨line, column⟩
  | length :: rest, line, column =>
    if length ≤ column then walkLines rest (line + 1) (column - length) else ⟨line, column⟩

/-- The line and column of a byte offset. -/
def lineCol (cs : List Char) (offset : Nat) : LineCol :=
  walkLines (lineLengths cs) 0 offset

end Netlist.Text

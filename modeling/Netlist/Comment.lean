/-
Comments.

A comment runs from two slashes to the end of the line, or from a slash and a star to the
next star and slash. Comments are blanked rather than cut out: line breaks stay, and every
other character becomes as many spaces as it has bytes. So all offsets, lines and columns
of the remaining text are those of the text with its comments.
-/

set_option autoImplicit false

namespace Netlist.Comment

/-- What stands in place of a character of a comment. -/
def blank (c : Char) : List Char :=
  if c = '\n' then ['\n'] else List.replicate c.utf8Size ' '

/-- Where the reader of a text stands. -/
inductive Mode where
  /-- Outside comments. -/
  | code
  /-- In a comment that ends with the line. -/
  | line
  /-- At the star that opens a comment. -/
  | opener
  /-- In a comment that ends with a star and a slash; `star` if a star was just read. -/
  | block (star : Bool)
deriving DecidableEq

/-- The text with its comments blanked, read from the given mode on. -/
def stripFrom : Mode → List Char → List Char
  | _, [] => []
  | .code, c :: cs =>
    if c = '/' then
      match cs with
      | '/' :: _ => blank c ++ stripFrom .line cs
      | '*' :: _ => blank c ++ stripFrom .opener cs
      | _ => c :: stripFrom .code cs
    else c :: stripFrom .code cs
  | .line, c :: cs =>
    if c = '\n' then c :: stripFrom .code cs else blank c ++ stripFrom .line cs
  | .opener, c :: cs => blank c ++ stripFrom (.block false) cs
  | .block star, c :: cs =>
    if star && c == '/' then blank c ++ stripFrom .code cs
    else blank c ++ stripFrom (.block (c == '*')) cs

/-- The text with its comments blanked. -/
def strip (cs : List Char) : List Char :=
  stripFrom .code cs

end Netlist.Comment

/-
Text without the control sequences of a terminal.

A control sequence begins with the escape character. What follows tells its kind, and the
kind tells where it ends. The cancel and the substitute character end any sequence, and an
escape character begins a new one. Outside of sequences all control characters are left out
too, except for the four that move to the next column, line or page.

A sequence that has begun may be interrupted by one of these four: the text behind it is
shown, up to the next control character, and there the sequence goes on. A character
beyond ASCII in that text gives the sequence up.
-/

set_option autoImplicit false

namespace Netlist.Text.Terminal

/-! ## Characters -/

/-- The control characters that move the place where text is shown. -/
def isMotion (c : Char) : Bool :=
  c = '\t' || c = '\n' || c = '\x0c' || c = '\r'

/-- The characters that are shown outside of control sequences. -/
def isShown (c : Char) : Bool :=
  isMotion c || (' ' ≤ c && c ≠ '\x7f')

/-- The character that begins a control sequence. -/
def escape : Char := '\x1b'

/-- The characters that end any control sequence: cancel and substitute. -/
def isCancel (c : Char) : Bool :=
  c = '\x18' || c = '\x1a'

/-- The characters that may stand between the parameters of a sequence and its end. -/
def isIntermediate (c : Char) : Bool :=
  ' ' ≤ c && c ≤ '/'

/-- The parameters of a sequence: digits and the marks behind them. -/
def isParameter (c : Char) : Bool :=
  '0' ≤ c && c ≤ '?'

/-- The parameters that may only come first. -/
def isLeading (c : Char) : Bool :=
  '<' ≤ c && c ≤ '?'

/-- The characters that end a sequence with parameters. -/
def isFinal (c : Char) : Bool :=
  '@' ≤ c && c ≤ '~'

/-- The encoding of the character has the byte that ends a string for a device. -/
def endsString (c : Char) : Bool :=
  (String.utf8EncodeChar c).contains 0x9C

/-! ## Sequences -/

/-- A control sequence of which the end has not been read. -/
inductive Sequence where
  /-- The escape character alone. -/
  | started
  /-- Behind the escape character, before the one that ends the sequence. -/
  | short
  /-- A command with parameters. -/
  | command
  /-- A string for a device, before its parameters. -/
  | device
  /-- A string for a device, in its parameters. -/
  | deviceParameters
  /-- A string for a device, behind its parameters. -/
  | deviceIntermediate
  /-- A string up to its terminator, whether its parameters make sense or not. -/
  | string
  /-- The text of a system command, up to the bell. -/
  | system
deriving DecidableEq

namespace Sequence

/-- What is open after a character that is neither an escape nor a cancel, if the character
does not end the sequence. -/
def next (s : Sequence) (c : Char) : Option Sequence :=
  match s with
  | started =>
    if isIntermediate c then some short
    else if c = '[' then some command
    else if c = ']' then some system
    else if c = 'P' then some device
    else if c = 'X' || c = '^' || c = '_' then some string
    else if isParameter c || isFinal c then none
    else some started
  | short => if isParameter c || isFinal c then none else some short
  | command => if isFinal c then none else some command
  | device =>
    if isIntermediate c then some deviceIntermediate
    else if isParameter c then some deviceParameters
    else if isFinal c then some string
    else some device
  | deviceParameters =>
    if isIntermediate c then some deviceIntermediate
    else if isLeading c || isFinal c then some string
    else some deviceParameters
  | deviceIntermediate =>
    if isParameter c || isFinal c then some string else some deviceIntermediate
  | string => if endsString c then none else some string
  | system => if c = '\x07' then none else some system

/-- The terminal acts on the control characters inside of the sequence. -/
def isInterruptible : Sequence → Bool
  | started | short | command => true
  | _ => false

end Sequence

/-! ## Text -/

/-- Where a character stands. -/
inductive Place where
  | outside
  | inside (s : Sequence)
  /-- Behind a motion that interrupts a sequence. -/
  | interrupted (s : Sequence)
deriving DecidableEq

/-- The place behind a character. -/
def Place.next (p : Place) (c : Char) : Place :=
  if c = escape then inside .started
  else if isCancel c then outside
  else
    match p with
    | outside => outside
    | inside s =>
      if s.isInterruptible && isMotion c then interrupted s
      else match s.next c with
        | some s => inside s
        | none => outside
    | interrupted s =>
      if '\x7f' < c then outside
      else if isShown c then interrupted s
      else inside s

/-- The character is shown at the place. -/
def Place.shows (p : Place) (c : Char) : Bool :=
  match p with
  | outside | interrupted _ => isShown c
  | inside s => s.isInterruptible && isMotion c

/-- What is shown of a text that begins at a place. -/
def shownFrom : Place → List Char → List Char
  | _, [] => []
  | p, c :: cs => if p.shows c then c :: shownFrom (p.next c) cs else shownFrom (p.next c) cs

/-- A text without control sequences. -/
def plain (s : String) : String :=
  String.ofList (shownFrom .outside s.toList)

end Netlist.Text.Terminal

/-
Sources and locations in them.

A source is a text together with where it came from. A location is a range of byte offsets
in a source; it knows its text and how to present its start to a reader. Joining two
locations keeps the source of the first, so both are expected to lie in one text.
-/
import Netlist.Text.Lines
import Netlist.Text.Quoted

set_option autoImplicit false

namespace Netlist

/-! ## Sources -/

/-- Where a text came from. -/
inductive Origin where
  /-- A file of the given path. -/
  | file (path : String)
  /-- A text that was handed over as it is. -/
  | text
  /-- Nowhere: there is no text. -/
  | unknown
deriving DecidableEq

/-- A text and where it came from. -/
structure Source where
  origin : Origin
  contents : List Char
deriving DecidableEq

namespace Source

/-- The contents of a file. -/
def ofFile (path contents : String) : Source :=
  ⟨.file path, contents.toList⟩

/-- A text that was handed over as it is. -/
def ofText (contents : String) : Source :=
  ⟨.text, contents.toList⟩

/-- No source at all. -/
def unknown : Source :=
  ⟨.unknown, []⟩

/-- The line and column of a byte offset. -/
def lineCol (s : Source) (offset : Nat) : Text.LineCol :=
  Text.lineCol s.contents offset

/-- The length of the text in bytes. -/
def byteLength (s : Source) : Nat :=
  Text.byteLength s.contents

end Source

/-! ## Locations -/

/-- A range of byte offsets in a source. -/
structure Location where
  source : Source
  start : Nat
  stop : Nat
deriving DecidableEq

namespace Location

/-- The location of something that stands in no source. -/
def unknown : Location :=
  ⟨.unknown, 0, 0⟩

/-- The location lies in no source. -/
def isUnknown (l : Location) : Bool :=
  l.source.origin == .unknown

/-- The location, if it lies in a source. -/
def known? (l : Location) : Option Location :=
  if l.isUnknown then none else some l

/-- The range that covers both locations; an unknown one adds nothing. -/
def join (a b : Location) : Location :=
  if a.isUnknown then b
  else if b.isUnknown then a
  else
    { source := a.source
      start := if a.start ≤ b.start then a.start else b.start
      stop := if a.stop ≤ b.stop then b.stop else a.stop }

/-- The text in the range; empty if the offsets are out of order, lie outside the text or
cut a character. -/
def text (l : Location) : String :=
  match Text.slice? l.source.contents l.start l.stop with
  | some cs => String.ofList cs
  | none => ""

/-- The line and column where the range starts. -/
def startPoint (l : Location) : Text.LineCol :=
  l.source.lineCol l.start

/-- The line and column where the range ends. -/
def stopPoint (l : Location) : Text.LineCol :=
  l.source.lineCol l.stop

/-- A location in a message is the point where it starts, after the path of its file. -/
instance : ToString Location where
  toString l :=
    match l.source.origin with
    | .file path => s!"{path}:{l.startPoint}"
    | .text => s!"{l.startPoint}"
    | .unknown => "?"

/-- Both ends of the range, and the quoted path or, without one, the quoted text. -/
def inspect (l : Location) : String :=
  match l.source.origin with
  | .file path => s!"[{l.startPoint}-{l.stopPoint}:{Text.quoted path}]"
  | .text => s!"[{l.startPoint}-{l.stopPoint}:{Text.quoted l.text}]"
  | .unknown => s!"[{l.startPoint}-{l.stopPoint}]"

end Location

end Netlist

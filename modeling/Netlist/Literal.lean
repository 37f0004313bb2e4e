/-
Literals: the written numbers of source text and of bindings.

A literal has one of two shapes. A bare one is decimal and as wide as its number needs,
but at least one bit. A sized one names its width and its base in front of the digits, as
in 8'hFF, and is reduced to that width. Underscores among the digits mean nothing.
-/
import Netlist.Radix
import Netlist.Text.Blank
import Netlist.Word

set_option autoImplicit false

namespace Netlist

/-! ## Shapes -/

/-- The shape of a literal, with its digits as written. -/
inductive Literal where
  /-- A decimal number on its own. -/
  | bare (digits : List Char)
  /-- A width, the letter that names the base, and digits. -/
  | sized (width : List Char) (letter : Char) (radix : Radix) (digits : List Char)

namespace Literal

/-- The mark between the width and the base of a sized literal. -/
def mark : Char := '\x27'

/-- A digit that a bare literal may have in any place but the first. -/
def isDecimalDigit (c : Char) : Bool :=
  c.isDigit || c == '_'

/-- A character that may follow the base of a sized literal. Whether it is a digit of that
base is another question. -/
def isBasedDigit (c : Char) : Bool :=
  (Radix.digitValue? c).isSome || c == '_'

/-- The radix that a base letter names, in either case. -/
def radixOfLetter? : Char → Option Radix
  | 'b' | 'B' => some .binary
  | 'd' | 'D' => some .decimal
  | 'h' | 'H' => some .hex
  | _ => none

/-- The shape of a text that is a literal by its looks. -/
def ofChars? (cs : List Char) : Option Literal :=
  match cs.takeWhile Char.isDigit, cs.dropWhile Char.isDigit with
  | [], _ => none
  | width, rest =>
    if rest.all isDecimalDigit then some (.bare cs)
    else
      match rest with
      | tick :: letter :: digits =>
        match radixOfLetter? letter with
        | some radix =>
          if tick == mark && digits.all isBasedDigit then some (.sized width letter radix digits)
          else none
        | none => none
      | _ => none

end Literal

/-! ## Reading -/

/-- Why a text is not a usable literal. -/
inductive LiteralError where
  /-- It has neither shape, or names a width that is no count. -/
  | invalid (text : String)
  /-- It names the width zero. -/
  | zeroWidth (text : String)
  /-- It has no digits, or one that its base lacks. -/
  | badDigits (text : String) (letter : Char)
deriving DecidableEq

/-- The text that reports the error. -/
def LiteralError.message : LiteralError → String
  | invalid text => s!"Invalid literal: {text}"
  | zeroWidth text => s!"Literal has zero width: {text}"
  | badDigits text letter => s!"Invalid digits for base '{letter}' in literal: {text}"

namespace Literal

/-- The digits without the underscores among them. -/
def plainDigits (digits : List Char) : List Char :=
  digits.filter (· != '_')

/-- The number of bits that a number needs, and at least one. -/
def bareWidth (n : Nat) : Nat :=
  n.log2 + 1

/-- The word that a literal of either shape stands for; `text` is the literal itself. -/
def word (text : String) : Literal → Except LiteralError Word
  | .bare digits =>
    match Radix.decimal.number? (plainDigits digits) with
    | some n => .ok (.ofNat (bareWidth n) n)
    | none => .error (.invalid text)
  | .sized width letter radix digits =>
    match (Radix.decimal.number? width).filter (· < Count.limit) with
    | none => .error (.invalid text)
    | some 0 => .error (.zeroWidth text)
    | some w =>
      match radix.number? (plainDigits digits) with
      | some n => .ok (.ofNat w n)
      | none => .error (.badDigits text letter.toLower)

/-- Reads a literal. Blanks around it do not matter, and errors do not repeat them. -/
def read (text : String) : Except LiteralError Word :=
  let bare := Text.trim text
  match ofChars? bare.toList with
  | some literal => literal.word bare
  | none => .error (.invalid bare)

end Literal

end Netlist

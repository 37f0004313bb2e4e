/-
The written forms of words.

Every form names the width after a letter `w`. Binary and hexadecimal digits are filled
with zeros to the width of the word; decimal digits are not.
-/
import Netlist.Radix
import Netlist.Word

set_option autoImplicit false

namespace Netlist.Word

/-- The digits of a word: as many as its width asks for in binary and hexadecimal, as
many as its number needs in decimal. -/
def digits (w : Word) : Radix → String
  | .binary => Radix.binary.paddedNumeral w.width w.bits
  | .decimal => Radix.decimal.numeral w.bits
  | .hex => Radix.hex.paddedNumeral ((w.width + 3) / 4) w.bits

/-- What stands in front of the digits of each radix. -/
def radixMark : Radix → String
  | .binary => "0b"
  | .decimal => ""
  | .hex => "0x"

/-- The full written form of a word in a radix, such as `0x05w6`. -/
def render (w : Word) (r : Radix) : String :=
  radixMark r ++ w.digits r ++ "w" ++ Radix.decimal.numeral w.width

instance : ToString Word where
  toString w := w.render .decimal

end Netlist.Word

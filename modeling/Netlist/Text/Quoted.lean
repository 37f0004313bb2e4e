/-
Quoted text.

Text is shown between double quotes, with a backslash in front of what could not stand
there as it is: the quote, the backslash and the named control characters. Any other
character that has no visible form of its own is given by its code point in hexadecimal.
-/
import Netlist.Radix
import Netlist.Text.Unprintable

set_option autoImplicit false

namespace Netlist.Text

/-- How a character is written inside quotes. -/
def quoteChar (c : Char) : List Char :=
  if c = '\x00' then ['\\', '0']
  else if c = '\t' then ['\\', 't']
  else if c = '\n' then ['\\', 'n']
  else if c = '\r' then ['\\', 'r']
  else if c = '"' then ['\\', '"']
  else if c = '\\' then ['\\', '\\']
  else if isUnprintable c then ['\\', 'u', '\x7b'] ++ Radix.hex.digits c.toNat ++ ['\x7d']
  else [c]

/-- A text between quotes. -/
def quoted (s : String) : String :=
  String.ofList ('"' :: s.toList.flatMap quoteChar ++ ['"'])

end Netlist.Text

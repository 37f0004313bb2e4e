/-
JSON text.

Documents are written with one entry a line, indented by two spaces for each level. A string
is written as it is, but for quotes, backslashes and control characters.
-/
import Netlist.NameMap
import Netlist.Radix

set_option autoImplicit false

namespace Netlist

/-- A document, as far as reports need it. -/
inductive Json where
  | null
  | number (n : Nat)
  | string (s : String)
  | array (items : List Json)
  /-- Fields in the order in which they are written. -/
  | object (fields : List (String × Json))

namespace Json

/-- The fields of a dictionary, in the order of their names. -/
def ofMap (m : NameMap Json) : Json :=
  object m.entries

/-- A text, or nothing. -/
def ofText? : Option String → Json
  | some s => string s
  | none => null

/-! ## Writing -/

/-- How a character is written inside a string. -/
def escapeChar (c : Char) : List Char :=
  if c = '"' then ['\\', '"']
  else if c = '\\' then ['\\', '\\']
  else if c = '\n' then ['\\', 'n']
  else if c = '\r' then ['\\', 'r']
  else if c = '\t' then ['\\', 't']
  else if c = '\x08' then ['\\', 'b']
  else if c = '\x0c' then ['\\', 'f']
  else if c.toNat < 0x20 then
    ['\\', 'u', '0', '0', Nat.digitChar (c.toNat / 16), Nat.digitChar (c.toNat % 16)]
  else [c]

/-- A string between quotes. -/
def quoted (s : String) : String :=
  String.ofList ('"' :: s.toList.flatMap escapeChar ++ ['"'])

/-- A line break and the indentation of a level. -/
def newline (level : Nat) : String :=
  String.ofList ('\n' :: List.replicate (2 * level) ' ')

/-- Written entries between brackets, each on a line of its own one level further in. -/
def block (level : Nat) (opening closing : String) (entries : List String) : String :=
  match entries with
  | [] => opening ++ closing
  | _ =>
    opening ++ newline (level + 1) ++ String.intercalate ("," ++ newline (level + 1)) entries ++
      newline level ++ closing

mutual

/-- A document that stands at a level. -/
def writeAt (level : Nat) : Json → String
  | null => "null"
  | number n => Radix.decimal.numeral n
  | string s => quoted s
  | array items => block level "[" "]" (writeItems (level + 1) items)
  | object fields => block level "\x7b" "\x7d" (writeFields (level + 1) fields)

/-- The items of an array. -/
def writeItems (level : Nat) : List Json → List String
  | [] => []
  | item :: rest => writeAt level item :: writeItems level rest

/-- The fields of an object. -/
def writeFields (level : Nat) : List (String × Json) → List String
  | [] => []
  | (name, value) :: rest =>
    (quoted name ++ ": " ++ writeAt level value) :: writeFields level rest

end

/-- A whole document. -/
def write (j : Json) : String :=
  writeAt 0 j

end Json

end Netlist

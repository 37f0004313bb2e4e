/-
Radices and the digits of natural numbers.

A radix names one of the three bases that numerals are written in. `digits` writes a
number and `number?` reads one; digits above nine are lower case when written and of either
case when read.
-/

set_option autoImplicit false

namespace Netlist

/-- The bases of numerals. -/
inductive Radix where
  | binary
  | decimal
  | hex
deriving DecidableEq

namespace Radix

/-- How many digits the radix has. -/
def base : Radix → Nat
  | binary => 2
  | decimal => 10
  | hex => 16

theorem one_lt_base (r : Radix) : 1 < r.base := by
  cases r <;> decide

/-! ## Digits -/

/-- The worth of a digit character, whatever the radix. -/
def digitValue? (c : Char) : Option Nat :=
  if '0' ≤ c ∧ c ≤ '9' then some (c.toNat - '0'.toNat)
  else if 'a' ≤ c ∧ c ≤ 'f' then some (c.toNat - 'a'.toNat + 10)
  else if 'A' ≤ c ∧ c ≤ 'F' then some (c.toNat - 'A'.toNat + 10)
  else none

/-- The worth of a character that is a digit of the radix. -/
def value? (r : Radix) (c : Char) : Option Nat :=
  (digitValue? c).filter (· < r.base)

/-- The number that a row of digits stands for. No digits are no number, and a character
that is no digit of the radix spoils the row. -/
def number? (r : Radix) : List Char → Option Nat
  | [] => none
  | cs => cs.foldlM (fun n c => (r.value? c).map (n * r.base + ·)) 0

/-- The digits of a number, most significant first and without leading zeros. -/
def digits (r : Radix) (n : Nat) : List Char :=
  Nat.toDigits r.base n

/-- `digits` as text. -/
def numeral (r : Radix) (n : Nat) : String :=
  match r with
  | decimal => toString n
  | binary | hex => String.ofList (r.digits n)

theorem numeral_eq (r : Radix) (n : Nat) : r.numeral n = String.ofList (r.digits n) := by
  cases r <;> rfl

/-- `digits` as text of at least `length` characters, filled with zeros on the left. -/
def paddedNumeral (r : Radix) (length n : Nat) : String :=
  let ds := r.digits n
  String.ofList (List.replicate (length - ds.length) '0' ++ ds)

/-! ## Names -/

/-- A name that no radix has. -/
structure UnknownName where
  name : String
deriving DecidableEq

/-- The text that reports an unknown name. -/
def UnknownName.message (e : UnknownName) : String :=
  s!"Unknown radix: {e.name} (expected bin, dec, or hex)"

/-- The radix of the given name; the case of ASCII letters does not matter. -/
def ofName (name : String) : Except UnknownName Radix :=
  match String.ofList (name.toList.map Char.toLower) with
  | "bin" | "binary" | "b" => .ok binary
  | "dec" | "decimal" | "d" => .ok decimal
  | "hex" | "h" | "x" => .ok hex
  | _ => .error ⟨name⟩

end Radix

end Netlist

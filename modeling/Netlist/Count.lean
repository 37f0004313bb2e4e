/-
Counts: widths, bit positions and numbers of copies.

Counts written in an expression or a declaration lie below `2 ^ 64`. A count computed
from others may lie beyond. Positions then stay at the largest count (`saturate`), while a
sum of widths is either refused or starts over at zero (`wrap`), as the build has it
(`Overflow`).
-/

set_option autoImplicit false

namespace Netlist.Count

/-- The first number that is not a count, `2 ^ 64`. -/
def limit : Nat := 0x10000000000000000

/-- The number as a count, or the largest count if it is not one. -/
def saturate (n : Nat) : Nat :=
  if n < limit then n else limit - 1

theorem saturate_eq_self {n : Nat} (h : n < limit) : saturate n = n := if_pos h

theorem saturate_le (n : Nat) : saturate n ≤ n := by
  unfold saturate
  split <;> omega

/-- What is left of the number in 64 bits. -/
def wrap (n : Nat) : Nat :=
  n % limit

theorem wrap_eq_self {n : Nat} (h : n < limit) : wrap n = n := Nat.mod_eq_of_lt h

theorem wrap_lt (n : Nat) : wrap n < limit := Nat.mod_lt n (by decide)

@[simp] theorem wrap_wrap_add (a b : Nat) : wrap (wrap a + b) = wrap (a + b) :=
  Nat.mod_add_mod a limit b

@[simp] theorem wrap_add_wrap (a b : Nat) : wrap (a + wrap b) = wrap (a + b) :=
  Nat.add_mod_mod a b limit

@[simp] theorem wrap_add_mul_wrap (a n b : Nat) : wrap (a + n * wrap b) = wrap (a + n * b) := by
  rw [wrap, wrap, wrap, Nat.add_mod, Nat.mul_mod_mod, ← Nat.add_mod]

/-- The distance between two positions. -/
def distance (a b : Nat) : Nat :=
  if a ≤ b then b - a else a - b

end Netlist.Count

namespace Netlist

/-- What a build makes of a sum of two widths that is no count. -/
inductive Overflow where
  /-- The work is broken off. -/
  | stops
  /-- Nobody looks, and the sum wraps around. -/
  | wraps
deriving DecidableEq

end Netlist

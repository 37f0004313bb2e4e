/-
What the operators compute on words.

A binary operator that yields a number yields it at the width of its left operand, and
one that yields a truth value yields one bit. Division by zero yields zero; reporting it
is the business of whoever applies the operator.
-/
import Netlist.Operator
import Netlist.Word

set_option autoImplicit false

namespace Netlist

namespace Word

/-! ## Arithmetic at the width of the left operand -/

/-- The sum. -/
def add (a b : Word) : Word :=
  ofNat a.width (a.bits + b.bits)

/-- The difference. Adding the modulus first keeps it above zero. -/
def sub (a b : Word) : Word :=
  ofNat a.width (modulus a.width + a.bits - truncate a.width b.bits)

/-- The product. -/
def mul (a b : Word) : Word :=
  ofNat a.width (a.bits * b.bits)

/-- The quotient rounded down, or zero for a zero divisor. -/
def div (a b : Word) : Word :=
  if b.isZero then zero a.width else ofNat a.width (a.bits / b.bits)

/-- The remainder, or zero for a zero divisor. -/
def rem (a b : Word) : Word :=
  if b.isZero then zero a.width else ofNat a.width (a.bits % b.bits)

/-! ## Bit by bit -/

/-- The bits set in both. -/
def and (a b : Word) : Word :=
  ofNat a.width (a.bits &&& b.bits)

/-- The bits set in either. -/
def or (a b : Word) : Word :=
  ofNat a.width (a.bits ||| b.bits)

/-- The bits set in exactly one. -/
def xor (a b : Word) : Word :=
  ofNat a.width (a.bits ^^^ b.bits)

/-! ## Shifts by the number of the right operand -/

/-- All bits moved up, zeros below. -/
def shiftLeft (a b : Word) : Word :=
  if a.width ≤ b.bits then zero a.width else ofNat a.width (a.bits <<< b.bits)

/-- All bits moved down, zeros above. -/
def shiftRight (a b : Word) : Word :=
  if a.width ≤ b.bits then zero a.width else ofNat a.width (a.bits >>> b.bits)

/-- All bits moved down, copies of the top bit above. -/
def arithmeticShiftRight (a b : Word) : Word :=
  let amount := if b.bits ≤ a.width then b.bits else a.width
  let moved := a.bits >>> amount
  if a.signBit then
    ofNat a.width (moved ||| (modulus amount - 1) <<< (a.width - amount))
  else
    ofNat a.width moved

/-! ## One operand -/

/-- The number whose sum with `a` is zero at this width. -/
def neg (a : Word) : Word :=
  ofNat a.width (modulus a.width - a.bits)

/-- Every bit turned over. -/
def complement (a : Word) : Word :=
  ofNat a.width ((modulus a.width - 1) ^^^ a.bits)

/-- Every bit is set. -/
def allSet (a : Word) : Bool :=
  a.bits == modulus a.width - 1

/-- Whether the count of set bits in `n` is odd, given that of the bits already seen. -/
def oddOnes (n : Nat) (seen : Bool) : Bool :=
  if n = 0 then seen else oddOnes (n / 2) (seen != (n % 2 == 1))
termination_by n
decreasing_by exact Nat.div_lt_self (by omega) (by decide)

/-- An odd number of bits is set. -/
def parity (a : Word) : Bool :=
  oddOnes a.bits false

end Word

/-! ## Applying an operator -/

/-- The value of a binary operator on two words. -/
def BinaryOperator.apply (op : BinaryOperator) (a b : Word) : Word :=
  match op with
  | add => a.add b
  | sub => a.sub b
  | mul => a.mul b
  | div => a.div b
  | rem => a.rem b
  | and => a.and b
  | or => a.or b
  | xor => a.xor b
  | shiftLeft => a.shiftLeft b
  | shiftRight => a.shiftRight b
  | arithmeticShiftRight => a.arithmeticShiftRight b
  | lt => .ofBool (a.bits < b.bits)
  | gt => .ofBool (a.bits > b.bits)
  | le => .ofBool (a.bits ≤ b.bits)
  | ge => .ofBool (a.bits ≥ b.bits)
  | eq => .ofBool (a.bits == b.bits)
  | ne => .ofBool (a.bits != b.bits)
  | logicalAnd => .ofBool (!a.isZero && !b.isZero)
  | logicalOr => .ofBool (!a.isZero || !b.isZero)

/-- The value of a unary operator on a word. -/
def UnaryOperator.apply (op : UnaryOperator) (a : Word) : Word :=
  match op with
  | plus => a
  | minus => a.neg
  | complement => a.complement
  | logicalNot => .ofBool a.isZero
  | andAll => .ofBool a.allSet
  | orAll => .ofBool (!a.isZero)
  | xorAll => .ofBool a.parity
  | nandAll => .ofBool (!a.allSet)
  | norAll => .ofBool a.isZero
  | xnorAll => .ofBool (!a.parity)

end Netlist

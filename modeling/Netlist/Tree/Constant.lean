/-
Constant trees.

The bounds of ranges have to be constants: literals, parentheses, the signs plus and minus,
and the four operations of arithmetic. They are worked out exactly, with division rounding
toward zero, as long as every number on the way lies between `-2 ^ 63` and `2 ^ 63 - 1`.
-/
import Netlist.Literal
import Netlist.Operator
import Netlist.Tree

set_option autoImplicit false

namespace Netlist

/-- The first number above those that a constant may be. -/
def constantLimit : Int := 0x8000000000000000

/-- The number, if a constant may be that number. -/
def bounded (n : Int) : Option Int :=
  if -constantLimit ≤ n ∧ n < constantLimit then some n else none

namespace Tree

/-- The number that a tree stands for, if it is a constant. -/
def constant? : Tree → Option Int
  | node .number location _ =>
    match Literal.read location.text with
    | .ok w => bounded w.bits
    | .error _ => none
  | node .parenthesizedExpression _ [e] => constant? e
  | node .unaryExpression _ [op, e] =>
    match constant? e with
    | none => none
    | some n =>
      match UnaryOperator.ofText? (Text.trim op.text) with
      | some .plus => some n
      | some .minus => bounded (-n)
      | _ => none
  | node .binaryExpression _ [left, op, right] =>
    match constant? left, constant? right with
    | some m, some n =>
      match BinaryOperator.ofText? (Text.trim op.text) with
      | some .add => bounded (m + n)
      | some .sub => bounded (m - n)
      | some .mul => bounded (m * n)
      | some .div => if n = 0 then none else bounded (m.tdiv n)
      | _ => none
    | _, _ => none
  | _ => none

/-- The number that a tree stands for, if it is a constant and not below zero. -/
def natConstant? (t : Tree) : Option Nat :=
  match t.constant? with
  | some n => if 0 ≤ n then some n.toNat else none
  | none => none

end Tree

end Netlist

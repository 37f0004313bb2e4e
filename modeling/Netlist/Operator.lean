/-
Operators: which there are, how they are spelled and how tightly they bind.

An expression keeps its operators as written text, because an expression may be built with
an operator that has no meaning; `ofText?` finds the operator that a text spells.
-/

set_option autoImplicit false

namespace Netlist

/-! ## Binary operators -/

/-- The binary operators that have a meaning. -/
inductive BinaryOperator where
  | add
  | sub
  | mul
  | div
  | rem
  | and
  | or
  | xor
  | shiftLeft
  | shiftRight
  | arithmeticShiftRight
  | lt
  | gt
  | le
  | ge
  | eq
  | ne
  | logicalAnd
  | logicalOr
deriving DecidableEq

namespace BinaryOperator

/-- How the operator is written. -/
def text : BinaryOperator → String
  | add => "+"
  | sub => "-"
  | mul => "*"
  | div => "/"
  | rem => "%"
  | and => "&"
  | or => "|"
  | xor => "^"
  | shiftLeft => "<<"
  | shiftRight => ">>"
  | arithmeticShiftRight => ">>>"
  | lt => "<"
  | gt => ">"
  | le => "<="
  | ge => ">="
  | eq => "=="
  | ne => "!="
  | logicalAnd => "&&"
  | logicalOr => "||"

/-- The operator that a text spells. -/
def ofText? : String → Option BinaryOperator
  | "+" => some add
  | "-" => some sub
  | "*" => some mul
  | "/" => some div
  | "%" => some rem
  | "&" => some and
  | "|" => some or
  | "^" => some xor
  | "<<" => some shiftLeft
  | ">>" => some shiftRight
  | ">>>" => some arithmeticShiftRight
  | "<" => some lt
  | ">" => some gt
  | "<=" => some le
  | ">=" => some ge
  | "==" => some eq
  | "!=" => some ne
  | "&&" => some logicalAnd
  | "||" => some logicalOr
  | _ => none

theorem ofText?_text (op : BinaryOperator) : ofText? op.text = some op := by
  cases op <;> rfl

/-- How tightly the operator binds, from 1 for the loosest tier to 10 for the tightest.
Operators of one tier group to the left. -/
def tier : BinaryOperator → Nat
  | logicalOr => 1
  | logicalAnd => 2
  | or => 3
  | xor => 4
  | and => 5
  | eq | ne => 6
  | lt | le | gt | ge => 7
  | shiftLeft | shiftRight | arithmeticShiftRight => 8
  | add | sub => 9
  | mul | div | rem => 10

/-- The operator divides, and so has no proper result for a zero right operand. -/
def divides : BinaryOperator → Bool
  | div | rem => true
  | _ => false

end BinaryOperator

/-! ## Unary operators -/

/-- The unary operators that have a meaning. -/
inductive UnaryOperator where
  | plus
  | minus
  | complement
  | logicalNot
  | andAll
  | orAll
  | xorAll
  | nandAll
  | norAll
  | xnorAll
deriving DecidableEq

namespace UnaryOperator

/-- The operator that a text spells. Exclusive nor has two spellings. -/
def ofText? : String → Option UnaryOperator
  | "+" => some plus
  | "-" => some minus
  | "~" => some complement
  | "!" => some logicalNot
  | "&" => some andAll
  | "|" => some orAll
  | "^" => some xorAll
  | "~&" => some nandAll
  | "~|" => some norAll
  | "~^" | "^~" => some xnorAll
  | _ => none

/-- How the operator is written in source text. -/
def text : UnaryOperator → String
  | plus => "+"
  | minus => "-"
  | complement => "~"
  | logicalNot => "!"
  | andAll => "&"
  | orAll => "|"
  | xorAll => "^"
  | nandAll => "~&"
  | norAll => "~|"
  | xnorAll => "~^"

theorem ofText?_text (op : UnaryOperator) : ofText? op.text = some op := by
  cases op <;> rfl

end UnaryOperator

end Netlist

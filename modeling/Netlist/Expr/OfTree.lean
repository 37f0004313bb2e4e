/-
From trees to expressions.

Parentheses vanish, bounds are worked out, and a selection that runs downwards becomes one
that runs upwards from its other end. A tree that has no counterpart yields nothing and
records exactly one warning, at the first part that is at fault.
-/
import Netlist.Diagnostic
import Netlist.Tree.Constant

set_option autoImplicit false

namespace Netlist

/-- A kind of node that needs certain children to be an expression. -/
def NodeKind.isComposite : NodeKind → Bool
  | parenthesizedExpression | conditionalExpression | unaryExpression | binaryExpression
  | concatenation | multipleConcatenation | bitSelect | rangeSelect | indexedRangeSelect => true
  | _ => false

namespace Expr

/-! ## Parts -/

/-- Records why a tree has no counterpart. -/
def refuse {α : Type} (location : Option Location) (finding : Finding) : OptionT Logged α :=
  OptionT.mk do
    Logged.warn location finding
    return none

/-- The bound of a range. -/
def bound (t : Tree) : OptionT Logged Nat :=
  match t.natConstant? with
  | some n => pure n
  | none => refuse t.location? (.unusableBound t.text)

/-- What stands in the inner braces of a replication: an only item stands for itself. -/
def unwrap : Expr → Expr
  | concat [e] => e
  | e => e

/-- The selection of `width` bits at a base, upwards or downwards as the operator says. -/
def partSelectOf (body base : Expr) (op width : Tree) : OptionT Logged Expr := do
  match ← bound width with
  | 0 => refuse width.location? (.emptyPartSelect width.text)
  | size + 1 =>
    match Text.trim op.text with
    | "+:" => return partSelect body base (size + 1)
    | "-:" =>
      let lowest := binary "-" base (constant (Radix.decimal.numeral size))
      return partSelect body lowest (size + 1)
    | other => refuse op.location? (.unsupportedPartSelect other)

/-! ## Trees -/

mutual

/-- The expression that a tree stands for. -/
def ofTree : Tree → OptionT Logged Expr
  | .node .simpleIdentifier location _ => return signal (Text.trim location.text)
  | .node .number location _ => return constant (Text.trim location.text)
  | .node .parenthesizedExpression _ [e] => ofTree e
  | .node .conditionalExpression _ [condition, yes, no] => do
    return conditional (← ofTree condition) (← ofTree yes) (← ofTree no)
  | .node .unaryExpression _ [op, e] => do
    return unary (Text.trim op.text) (← ofTree e)
  | .node .binaryExpression _ [left, op, right] => do
    return binary (Text.trim op.text) (← ofTree left) (← ofTree right)
  | .node .concatenation _ (part :: parts) => do
    return concat ((← ofTree part) :: (← ofTrees parts))
  | .node .multipleConcatenation _ [count, inner] => do
    let count ← ofTree count
    return replicate (unwrap (← ofTree inner)) count
  | .node .bitSelect _ [e, index] => do
    return select (← ofTree e) (← ofTree index)
  | .node .rangeSelect _ [e, upper, lower] => do
    let body ← ofTree e
    let stop ← bound upper
    let start ← bound lower
    return slice body start stop
  | .node .indexedRangeSelect _ [e, base, op, width] => do
    partSelectOf (← ofTree e) (← ofTree base) op width
  | .node kind location children =>
    if kind.isComposite then refuse location.known? (.malformedNode kind children.length)
    else refuse location.known? (.unsupportedNode kind location.text)

/-- The expressions that a row of trees stands for. -/
def ofTrees : List Tree → OptionT Logged (List Expr)
  | [] => return []
  | t :: ts => return (← ofTree t) :: (← ofTrees ts)

end

end Expr

end Netlist

/-
Expressions over signals.

An expression keeps its numbers and operators as they were written; what they mean is found
out when it is evaluated. Bounds and widths of selections are counts by then.
-/
import Netlist.NameMap
import Netlist.Radix

set_option autoImplicit false

namespace Netlist

/-! ## The type -/

/-- An expression. -/
inductive Expr where
  /-- A literal as written, such as 8'hFF or 42. -/
  | constant (text : String)
  /-- The value of a signal. -/
  | signal (name : String)
  /-- A binary operator between two operands. -/
  | binary (op : String) (left right : Expr)
  /-- A unary operator in front of its operand. -/
  | unary (op : String) (operand : Expr)
  /-- The first arm if the condition is not zero, else the second. -/
  | conditional (condition yes no : Expr)
  /-- The parts side by side, the first one on top. -/
  | concat (parts : List Expr)
  /-- So many copies side by side. -/
  | replicate (body count : Expr)
  /-- The bits between two fixed positions. -/
  | slice (body : Expr) (start stop : Nat)
  /-- So many bits from a computed position upwards. -/
  | partSelect (body base : Expr) (width : Nat)
  /-- The bit at a computed position. -/
  | select (body index : Expr)

namespace Expr

/-! ## Equality -/

mutual

/-- Two expressions are the same. -/
def same : Expr → Expr → Bool
  | constant s, constant t => s == t
  | signal s, signal t => s == t
  | binary o a b, binary p c d => o == p && same a c && same b d
  | unary o a, unary p b => o == p && same a b
  | conditional a b c, conditional d e f => same a d && same b e && same c f
  | concat as, concat bs => sameAll as bs
  | replicate a b, replicate c d => same a c && same b d
  | slice a m n, slice b k l => same a b && m == k && n == l
  | partSelect a b m, partSelect c d n => same a c && same b d && m == n
  | select a b, select c d => same a c && same b d
  | _, _ => false

/-- Two rows of expressions are the same. -/
def sameAll : List Expr → List Expr → Bool
  | [], [] => true
  | a :: as, b :: bs => same a b && sameAll as bs
  | _, _ => false

end

mutual

theorem same_iff_eq : ∀ a b : Expr, same a b = true ↔ a = b
  | constant _, b => by cases b <;> simp [same]
  | signal _, b => by cases b <;> simp [same]
  | binary _ l r, b => by
    cases b <;> simp [same, same_iff_eq l, same_iff_eq r, and_assoc]
  | unary _ e, b => by cases b <;> simp [same, same_iff_eq e]
  | conditional c y n, b => by
    cases b <;> simp [same, same_iff_eq c, same_iff_eq y, same_iff_eq n, and_assoc]
  | concat es, b => by cases b <;> simp [same, sameAll_iff_eq es]
  | replicate e c, b => by cases b <;> simp [same, same_iff_eq e, same_iff_eq c]
  | slice e _ _, b => by cases b <;> simp [same, same_iff_eq e, and_assoc]
  | partSelect e s _, b => by cases b <;> simp [same, same_iff_eq e, same_iff_eq s, and_assoc]
  | select e i, b => by cases b <;> simp [same, same_iff_eq e, same_iff_eq i]

theorem sameAll_iff_eq : ∀ as bs : List Expr, sameAll as bs = true ↔ as = bs
  | [], bs => by cases bs <;> simp [sameAll]
  | a :: as, bs => by cases bs <;> simp [sameAll, same_iff_eq a, sameAll_iff_eq as]

end

instance : DecidableEq Expr := fun a b => decidable_of_iff _ (same_iff_eq a b)

/-! ## Written form -/

mutual

/-- The expression with parentheses around every binary operation and conditional. -/
def text : Expr → String
  | constant t => t
  | signal name => name
  | binary op left right => "(" ++ left.text ++ " " ++ op ++ " " ++ right.text ++ ")"
  | unary op operand => op ++ operand.text
  | conditional condition yes no =>
    "(" ++ condition.text ++ " ? " ++ yes.text ++ " : " ++ no.text ++ ")"
  | concat parts => "\x7b" ++ String.intercalate ", " (texts parts) ++ "\x7d"
  | replicate body count => "\x7b" ++ count.text ++ "\x7b" ++ body.text ++ "\x7d\x7d"
  | slice body start stop =>
    body.text ++ "[" ++ Radix.decimal.numeral stop ++ ":" ++ Radix.decimal.numeral start ++ "]"
  | partSelect body base width =>
    body.text ++ "[" ++ base.text ++ " +: " ++ Radix.decimal.numeral width ++ "]"
  | select body index => body.text ++ "[" ++ index.text ++ "]"

/-- The written forms of a row of expressions. -/
def texts : List Expr → List String
  | [] => []
  | e :: es => e.text :: texts es

end

instance : ToString Expr where
  toString := text

/-! ## Subexpressions and signals -/

mutual

/-- The expression and all its parts, each before its own parts. -/
def subexprs : Expr → List Expr
  | constant t => [constant t]
  | signal name => [signal name]
  | binary op left right => binary op left right :: (left.subexprs ++ right.subexprs)
  | unary op operand => unary op operand :: operand.subexprs
  | conditional condition yes no =>
    conditional condition yes no :: (condition.subexprs ++ yes.subexprs ++ no.subexprs)
  | concat parts => concat parts :: subexprsAll parts
  | replicate body count => replicate body count :: (body.subexprs ++ count.subexprs)
  | slice body start stop => slice body start stop :: body.subexprs
  | partSelect body base width =>
    partSelect body base width :: (body.subexprs ++ base.subexprs)
  | select body index => select body index :: (body.subexprs ++ index.subexprs)

/-- The parts of a row of expressions, those of each before those of the next. -/
def subexprsAll : List Expr → List Expr
  | [] => []
  | e :: es => e.subexprs ++ subexprsAll es

end

/-- The name of the signal that the expression is. -/
def signalName? : Expr → Option String
  | signal name => some name
  | _ => none

/-- The signals that the expression reads. -/
def signals (e : Expr) : NameSet :=
  NameSet.ofNames (e.subexprs.filterMap signalName?)

end Expr

end Netlist

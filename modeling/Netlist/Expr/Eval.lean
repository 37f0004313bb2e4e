/-
The values of expressions.

Signals are read from an environment. Only the arm of a conditional that is taken is
evaluated. What cannot be evaluated stops the work; what can be made to fit is made to fit
and recorded. Whatever was recorded stands, also when the work stops later.

Words are put together at the sum of their widths, which a build may check or not
(`Overflow`). `evalWith` is told which build it is, and `eval` is the one that does not check.
-/
import Netlist.Diagnostic
import Netlist.Literal
import Netlist.Word.Concat
import Netlist.Word.Operator

set_option autoImplicit false

namespace Netlist

/-- Words by the names of signals. -/
abbrev Env := NameMap Word

/-- Why an expression has no value. -/
inductive EvalError where
  /-- A signal that the environment does not bind. -/
  | unboundSignal (name : String)
  /-- A text that spells no operator. -/
  | unknownOperator (op : String)
  /-- A number of copies that is zero or no count. -/
  | badCount (n : Nat)
  /-- A text that is no literal. -/
  | literal (e : LiteralError)
  /-- A sum of widths that is no count, in a build that checks it. This is no answer of the
  program but the end of it. -/
  | overflow
deriving DecidableEq

/-- The text that reports the error. -/
def EvalError.message : EvalError → String
  | unboundSignal name => s!"No value bound for signal: {name}"
  | unknownOperator op => s!"Unknown operator: {op}"
  | badCount n =>
    "Replication count must be a positive integer, but it was " ++ Radix.decimal.numeral n
  | literal e => e.message
  | overflow => "attempt to add with overflow"

/-- Work that may record diagnostics and may stop with an error. -/
abbrev Evaluation := ExceptT EvalError Logged

/-- Records a warning that has no place in a source. -/
def Evaluation.warn (finding : Finding) : Evaluation Unit :=
  ExceptT.lift (Logged.warn none finding)

namespace Expr

/-! ## Operators -/

/-- The value of a binary operator on two words. -/
def evalBinary (op : BinaryOperator) (a b : Word) : Evaluation Word := do
  if op.divides && b.isZero then
    Evaluation.warn (.divisionByZero a op b)
  return op.apply a b

/-! ## Selections -/

/-- The bits of a word between two fixed positions. The range starts at `start`, whichever
of the two positions is the larger. -/
def evalSlice (e : Expr) (v : Word) (start stop : Nat) : Evaluation Word := do
  let lowest := if start ≤ stop then start else stop
  let width := Count.saturate (Count.distance start stop + 1)
  if v.width < Count.saturate (lowest + width) then
    Evaluation.warn (.sliceOutOfRange e v.width)
  return v.extract start width

/-- The `width` bits of a word from a computed position upwards. -/
def evalPartSelect (e : Expr) (v position : Word) (width : Nat) : Evaluation Word := do
  let inside :=
    match position.count? with
    | some n => decide (Count.saturate (n + width) ≤ v.width)
    | none => false
  if !inside then
    Evaluation.warn (.partSelectOutOfRange e position v.width)
  return v.extract position.bits width

/-- The bit of a word at a computed position. -/
def evalSelect (e : Expr) (v position : Word) : Evaluation Word := do
  if v.width ≤ position.bits then
    Evaluation.warn (.selectOutOfRange e position v.width)
  return .ofBool (v.bit position.bits)

/-! ## Words side by side -/

/-- Two words side by side. -/
def join (mode : Overflow) (high low : Word) : Evaluation Word :=
  if mode = .stops ∧ Count.limit ≤ high.width + low.width then throw .overflow
  else return high.append low

/-! ## Expressions -/

mutual

/-- The value of an expression in a build that treats overflow as told. -/
def evalWith (mode : Overflow) (env : Env) : Expr → Evaluation Word
  | constant text =>
    match Literal.read text with
    | .ok w => return w
    | .error e => throw (.literal e)
  | signal name =>
    match env.get? name with
    | some w => return w
    | none => throw (.unboundSignal name)
  | binary op left right =>
    match BinaryOperator.ofText? op with
    | some known => do evalBinary known (← evalWith mode env left) (← evalWith mode env right)
    | none => throw (.unknownOperator op)
  | unary op operand =>
    match UnaryOperator.ofText? op with
    | some known => do return known.apply (← evalWith mode env operand)
    | none => throw (.unknownOperator op)
  | conditional condition yes no => do
    if (← evalWith mode env condition).isZero then evalWith mode env no else evalWith mode env yes
  | concat parts => evalBelow mode env (.zero 0) parts
  | replicate body count => do
    let n ← evalWith mode env count
    match n.count? with
    | none | some 0 => throw (.badCount n.bits)
    | some (copies + 1) => do
      Word.joinCopies (join mode) (copies + 1) (← evalWith mode env body) (.zero 0)
  | slice body start stop => do
    evalSlice (slice body start stop) (← evalWith mode env body) start stop
  | partSelect body base width => do
    let v ← evalWith mode env body
    evalPartSelect (partSelect body base width) v (← evalWith mode env base) width
  | select body index => do
    let v ← evalWith mode env body
    evalSelect (select body index) v (← evalWith mode env index)

/-- Puts the values of a row of expressions below what is there already, one by one. -/
def evalBelow (mode : Overflow) (env : Env) (there : Word) : List Expr → Evaluation Word
  | [] => return there
  | e :: es => do evalBelow mode env (← join mode there (← evalWith mode env e)) es

end

/-! ## The build that does not check -/

/-- The value of an expression. -/
def eval (env : Env) (e : Expr) : Evaluation Word :=
  evalWith .wraps env e

/-- The values of a row of expressions. -/
def evalAll (env : Env) : List Expr → Evaluation (List Word)
  | [] => return []
  | e :: es => return (← eval env e) :: (← evalAll env es)

section Equations

variable (env : Env)

theorem eval_constant (text : String) :
    eval env (constant text) =
      match Literal.read text with
      | .ok w => return w
      | .error e => throw (.literal e) := by
  rw [eval, evalWith]

theorem eval_signal (name : String) :
    eval env (signal name) =
      match env.get? name with
      | some w => return w
      | none => throw (.unboundSignal name) := by
  rw [eval, evalWith]

theorem eval_binary (op : String) (left right : Expr) :
    eval env (binary op left right) =
      match BinaryOperator.ofText? op with
      | some known => do evalBinary known (← eval env left) (← eval env right)
      | none => throw (.unknownOperator op) := by
  rw [eval, evalWith]
  rfl

theorem eval_unary (op : String) (operand : Expr) :
    eval env (unary op operand) =
      match UnaryOperator.ofText? op with
      | some known => do return known.apply (← eval env operand)
      | none => throw (.unknownOperator op) := by
  rw [eval, evalWith]
  rfl

theorem eval_conditional (condition yes no : Expr) :
    eval env (conditional condition yes no) = (do
      if (← eval env condition).isZero then eval env no else eval env yes) := by
  rw [eval, evalWith]
  rfl

theorem eval_slice (body : Expr) (start stop : Nat) :
    eval env (slice body start stop) = (do
      evalSlice (slice body start stop) (← eval env body) start stop) := by
  rw [eval, evalWith]
  rfl

theorem eval_partSelect (body base : Expr) (width : Nat) :
    eval env (partSelect body base width) = (do
      evalPartSelect (partSelect body base width) (← eval env body) (← eval env base) width) := by
  rw [eval, evalWith]
  rfl

theorem eval_select (body index : Expr) :
    eval env (select body index) = (do
      evalSelect (select body index) (← eval env body) (← eval env index)) := by
  rw [eval, evalWith]
  rfl

theorem join_wraps : join .wraps = fun high low => return high.append low :=
  funext fun _ => funext fun _ => if_neg fun h => nomatch h.1

/-- Below what is there already stand the values of the row. -/
theorem evalBelow_wraps (there : Word) (parts : List Expr) :
    evalBelow .wraps env there parts = (do return (← evalAll env parts).foldl .append there) := by
  induction parts generalizing there with
  | nil => simp [evalBelow, evalAll]
  | cons e es ih => simp [evalBelow, evalAll, join_wraps, ih, eval]

theorem eval_concat (parts : List Expr) :
    eval env (concat parts) = (do return Word.concat (← evalAll env parts)) := by
  rw [eval, evalWith, evalBelow_wraps]
  rfl

theorem eval_replicate (body count : Expr) :
    eval env (replicate body count) = (do
      let n ← eval env count
      match n.count? with
      | none | some 0 => throw (.badCount n.bits)
      | some (copies + 1) => return (← eval env body).replicate (copies + 1)) := by
  rw [eval, evalWith, join_wraps]
  simp only [Word.joinCopies_pure]
  rfl

end Equations

end Expr

end Netlist

/-
Reading expressions, one token at a time.

The reader is a pushdown machine. Its stack holds the constructs that are open, the
innermost on top: operators that wait for their last operand, arms of conditionals, and
brackets. It either waits for an operand or has just read one. A binary operator first
closes every open operator that binds at least as tightly, so operators of one tier group
to the left; a colon and a closing bracket close everything down to their partner.

Each token is either read or refused, and a refusal depends only on what stands before the
token. The first refused token of an expression is therefore the first one that no
continuation could make good.
-/
import Netlist.Token
import Netlist.Tree

set_option autoImplicit false

namespace Netlist.Grammar

/-! ## Nodes over tokens -/

/-- A node that covers a range of bytes. -/
def nodeOver (source : Source) (k : NodeKind) (start stop : Nat) (ts : List Tree) : Tree :=
  .node k ⟨source, start, stop⟩ ts

/-- A node without children that covers a token. -/
def tokenNode (source : Source) (k : NodeKind) (t : Token) : Tree :=
  nodeOver source k t.start t.stop []

/-! ## States -/

/-- A construct that is open: what has been read of it. -/
inductive Frame where
  /-- A unary operator. -/
  | unary (op : Tree)
  /-- A left operand and a binary operator of the given tier. -/
  | binary (tier : Nat) (left op : Tree)
  /-- A condition and its question mark. -/
  | thenArm (condition : Tree)
  /-- A condition, its first arm and the colon. -/
  | elseArm (condition yes : Tree)
  /-- An opening parenthesis at the given offset. -/
  | paren (start : Nat)
  /-- A name and an opening bracket. -/
  | index (name : Tree)
  /-- A name, its bracket, the upper bound and the colon. -/
  | lowerBound (name upper : Tree)
  /-- A name, its bracket, a base and the operator that announces a width. -/
  | partWidth (name base op : Tree)
  /-- An opening brace at the given offset and the items before the current one. -/
  | items (start : Nat) (read : List Tree)
  /-- An opening brace and a count; then a second brace and the items before the current
  one. -/
  | copies (start : Nat) (count : Tree) (inner : Nat) (read : List Tree)

/-- What has just been read. -/
inductive Progress where
  /-- Nothing yet: an operand has to come. -/
  | awaiting
  /-- An operand. -/
  | operand (t : Tree)
  /-- The inner braces of a replication, whose outer brace opened at the given offset. -/
  | copied (start : Nat) (count inner : Tree)

/-- What an expression is read for. -/
inductive Goal where
  /-- Any expression. -/
  | any
  /-- An operand alone, without an operator around it. -/
  | operand
deriving DecidableEq

/-- An expression in the making. -/
structure Reader where
  goal : Goal
  stack : List Frame
  progress : Progress

namespace Reader

/-- Nothing has been read. -/
def start (goal : Goal) : Reader :=
  ⟨goal, [], .awaiting⟩

/-! ## Closing constructs -/

/-- Gives the operand to the open operators on top of the stack that bind at least as
tightly as `least`. Unary operators bind tightest; a conditional has tier zero. -/
def close (least : Nat) : List Frame → Tree → List Frame × Tree
  | .unary op :: rest, t => close least rest (.spanning .unaryExpression [op, t])
  | .binary tier left op :: rest, t =>
    if least ≤ tier then close least rest (.spanning .binaryExpression [left, op, t])
    else (.binary tier left op :: rest, t)
  | .elseArm condition yes :: rest, t =>
    if least = 0 then close least rest (.spanning .conditionalExpression [condition, yes, t])
    else (.elseArm condition yes :: rest, t)
  | stack, t => (stack, t)

/-- The whole expression, if what has been read is one. -/
def finish? (r : Reader) : Option Tree :=
  match r.progress with
  | .operand t =>
    match close 0 r.stack t with
    | ([], whole) => some whole
    | _ => none
  | _ => none

/-! ## Reading a token -/

/-- Opens a construct whose operand comes next. -/
def push (r : Reader) (frame : Frame) (below : List Frame) : Reader :=
  ⟨r.goal, frame :: below, .awaiting⟩

/-- Goes on after an operand. -/
def withOperand (r : Reader) (t : Tree) (stack : List Frame) : Reader :=
  ⟨r.goal, stack, .operand t⟩

/-- Reads a token where an operand has to come. -/
def stepAwaiting (source : Source) (r : Reader) (t : Token) : Option Reader :=
  match t.terminal with
  | .identifier => some (r.withOperand (tokenNode source .simpleIdentifier t) r.stack)
  | .number => some (r.withOperand (tokenNode source .number t) r.stack)
  | .punctuation .openParen => some (r.push (.paren t.start) r.stack)
  | .punctuation .openBrace => some (r.push (.items t.start []) r.stack)
  | .punctuation p =>
    match p.unary?, r.goal, r.stack with
    | none, _, _ => none
    | some _, .operand, [] => none
    | some _, _, stack => some (r.push (.unary (tokenNode source .unaryOperator t)) stack)
  | .keyword _ => none

/-- Reads a sign after an operand where the operand may be part of something larger. -/
def stepSign (source : Source) (r : Reader) (read : Tree) (p : Punctuation) (t : Token) :
    Option Reader :=
  match p.binary? with
  | some op =>
    let (below, left) := close op.tier r.stack read
    some (r.push (.binary op.tier left (tokenNode source .binaryOperator t)) below)
  | none =>
    match p, close 0 r.stack read with
    | .question, _ =>
      let (below, condition) := close 1 r.stack read
      some (r.push (.thenArm condition) below)
    | .colon, (.thenArm condition :: below, yes) => some (r.push (.elseArm condition yes) below)
    | .colon, (.index name :: below, upper) => some (r.push (.lowerBound name upper) below)
    | .plusColon, (.index name :: below, base)
    | .minusColon, (.index name :: below, base) =>
      some (r.push (.partWidth name base (tokenNode source .indexedRangeOperator t)) below)
    | .comma, (.items start read :: below, e) => some (r.push (.items start (read ++ [e])) below)
    | .comma, (.copies start count inner read :: below, e) =>
      some (r.push (.copies start count inner (read ++ [e])) below)
    | .openBrace, (.items start [] :: below, count) =>
      some (r.push (.copies start count t.start []) below)
    | .closeParen, (.paren start :: below, e) =>
      some (r.withOperand (nodeOver source .parenthesizedExpression start t.stop [e]) below)
    | .closeBracket, (.index name :: below, e) =>
      some (r.withOperand (nodeOver source .bitSelect name.location.start t.stop [name, e]) below)
    | .closeBracket, (.lowerBound name upper :: below, lower) =>
      some (r.withOperand
        (nodeOver source .rangeSelect name.location.start t.stop [name, upper, lower]) below)
    | .closeBracket, (.partWidth name base op :: below, width) =>
      some (r.withOperand
        (nodeOver source .indexedRangeSelect name.location.start t.stop [name, base, op, width])
        below)
    | .closeBrace, (.items start read :: below, e) =>
      some (r.withOperand (nodeOver source .concatenation start t.stop (read ++ [e])) below)
    | .closeBrace, (.copies start count inner read :: below, e) =>
      some ⟨r.goal, below,
        .copied start count (nodeOver source .concatenation inner t.stop (read ++ [e]))⟩
    | _, _ => none

/-- Reads a token after an operand. A bracket belongs to a name right before it; an operand
read for its own sake ends where nothing is open. -/
def stepOperand (source : Source) (r : Reader) (read : Tree) (t : Token) : Option Reader :=
  match t.terminal with
  | .punctuation .openBracket =>
    if read.kind = .simpleIdentifier then some (r.push (.index read) r.stack) else none
  | .punctuation p =>
    match r.goal, r.stack with
    | .operand, [] => none
    | _, _ => stepSign source r read p t
  | _ => none

/-- Reads a token, or refuses it. -/
def step (source : Source) (r : Reader) (t : Token) : Option Reader :=
  match r.progress with
  | .awaiting => stepAwaiting source r t
  | .operand read => stepOperand source r read t
  | .copied start count inner =>
    match t.terminal with
    | .punctuation .closeBrace =>
      some (r.withOperand (nodeOver source .multipleConcatenation start t.stop [count, inner])
        r.stack)
    | _ => none

/-! ## Expressions inside larger constructs -/

/-- What a token does to an expression that stands inside a larger construct. -/
inductive Fed where
  /-- The expression has read the token. -/
  | reading (r : Reader)
  /-- The expression is complete, and the token comes after it. -/
  | complete (t : Tree)

/-- Offers a token to an expression. It reads all it can; a token that it refuses comes
after it, if it is complete by then. -/
def feed (source : Source) (r : Reader) (t : Token) : Option Fed :=
  match r.step source t with
  | some next => some (.reading next)
  | none => r.finish?.map .complete

/-- Reads a row of tokens, up to the first that is refused. -/
def run (source : Source) (r : Reader) : List Token → Except Token Reader
  | [] => .ok r
  | t :: ts =>
    match r.step source t with
    | some next => run source next ts
    | none => .error t

end Reader

end Netlist.Grammar

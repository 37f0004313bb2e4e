/-
From text to trees.

`parseExpression` reads the text of a source as one expression, and `parseFile` as a row of
modules. Either reads all tokens before it complains, so a place that starts no token is
reported even if a token before it was refused.

A message about a refused token lists the tokens that could have come. A parser has them in
its tables. Here they are up to the caller (`Expectations`), and an error carries what a table
is looked up by: the terminals that were read, and the one that was refused.
-/
import Netlist.Grammar.SourceFile

set_option autoImplicit false

namespace Netlist.Grammar

/-! ## Errors -/

/-- The tokens that could have come, by the terminals that were read and by the one that came
instead, if any did. -/
abbrev Expectations := List Terminal → Option Terminal → List String

/-- What is wrong with a text that cannot be read. -/
inductive Fault where
  /-- A token stands where it cannot, behind the ones `before`. -/
  | unexpectedToken (before : List Terminal) (refused : Terminal)
  /-- The text ends too early, behind the tokens `before`. -/
  | unexpectedEnd (before : List Terminal)
  /-- No token starts here. -/
  | invalidToken
deriving DecidableEq

/-- The tokens that could have come, in words. -/
def Expectations.list (expected : Expectations) (before : List Terminal)
    (refused : Option Terminal) : String :=
  "Expected one of " ++ " ".intercalate (expected before refused)

/-- The text that reports the fault. -/
def Fault.message (expected : Expectations) : Fault → String
  | unexpectedToken before refused => expected.list before (some refused)
  | unexpectedEnd before => "Unexpected end of file. " ++ expected.list before none
  | invalidToken => "Invalid token"

/-- A fault and where it is: at the refused token, right behind the last token, or right
before the place that starts no token. -/
structure ParseError where
  location : Location
  fault : Fault
deriving DecidableEq

namespace ParseError

/-- The text that reports the error. -/
def message (expected : Expectations) (e : ParseError) : String :=
  s!"Parse error at {e.location}: {e.fault.message expected}"

/-- A refused token behind others. -/
def refused (source : Source) (before : List Token) (t : Token) : ParseError :=
  ⟨⟨source, t.start, t.stop⟩, .unexpectedToken (before.map Token.terminal) t.terminal⟩

/-- A row of tokens that ends too early. -/
def ended (source : Source) (ts : List Token) : ParseError :=
  let stop := (ts.getLast?.map Token.stop).getD 0
  ⟨⟨source, stop, stop⟩, .unexpectedEnd (ts.map Token.terminal)⟩

/-- A place that starts no token. -/
def invalid (source : Source) (offset : Nat) : ParseError :=
  ⟨⟨source, offset, offset⟩, .invalidToken⟩

end ParseError

/-! ## Parsing -/

/-- The tokens of a source. -/
def tokens (source : Source) : Except ParseError (List Token) :=
  match Token.scan source.contents with
  | .ok ts => .ok ts
  | .error offset => .error (.invalid source offset)

/-- The tokens in front of one of them. No two tokens of a text are the same, since they stand in
different places. -/
def tokensBefore (t : Token) (ts : List Token) : List Token :=
  ts.takeWhile (· ≠ t)

theorem tokensBefore_append {t : Token} {before : List Token} (h : t ∉ before)
    (after : List Token) : tokensBefore t (before ++ t :: after) = before := by
  have hne : ∀ u ∈ before, decide (u ≠ t) = true := by
    intro u hu
    refine decide_eq_true ?_
    rintro rfl
    exact h hu
  rw [tokensBefore, List.takeWhile_append_of_pos hne, List.takeWhile_cons_of_neg (by simp),
    List.append_nil]

/-- Reads tokens as one expression. -/
def expressionOfTokens (source : Source) (ts : List Token) : Except ParseError Tree :=
  match (Reader.start .any).run source ts with
  | .error t => .error (.refused source (tokensBefore t ts) t)
  | .ok r =>
    match r.finish? with
    | some t => .ok t
    | none => .error (.ended source ts)

/-- Reads tokens as a source file. -/
def fileOfTokens (source : Source) (ts : List Token) : Except ParseError Tree :=
  match (SourceFile.start.run source ts).finish source with
  | .ok modules => .ok (nodeOver source .sourceFile 0 source.byteLength modules)
  | .error (.refused t) => .error (.refused source (tokensBefore t ts) t)
  | .error .ended => .error (.ended source ts)

/-- Reads a source as one expression. -/
def parseExpression (source : Source) : Except ParseError Tree := do
  expressionOfTokens source (← tokens source)

/-- Reads a source as a row of modules. -/
def parseFile (source : Source) : Except ParseError Tree := do
  fileOfTokens source (← tokens source)

end Netlist.Grammar

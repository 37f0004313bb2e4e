/-
Reading a source file, one token at a time.

A source file is a row of modules. Inside the body of a module a refused token spoils only
the item in which it stands: everything from the end of the last good item up to the next
semicolon becomes one error node, which covers the text from the refused token on, and
reading goes on behind the semicolon. The keyword that ends a module counts as such only
before another module or at the end of the file; before any other token it belongs to a
spoiled item. Outside the body of a module a refused token spoils the file, and so does an
item without a semicolon behind the refused token.
-/
import Netlist.Grammar.Header

set_option autoImplicit false

namespace Netlist.Grammar

/-- Where in a source file the reader stands. -/
inductive Place where
  /-- Before the first module. -/
  | outside
  /-- In the header of a module that starts at the given offset. -/
  | header (start : Nat) (h : Header)
  /-- In an item of the body of a module, behind its complete `children`. -/
  | body (start : Nat) (children : List Tree) (item : Item)
  /-- Right behind the keyword that ends a module. -/
  | closed (start stop : Nat) (children : List Tree)
  /-- In a spoiled item: `refused` was refused, and the last token read ends at `stop`. -/
  | spoiled (start : Nat) (children : List Tree) (refused : Token) (stop : Nat)
  /-- Behind a token that spoiled the file. -/
  | lost (refused : Token)

/-- A source file in the making: the modules that are complete, and where we are. -/
structure SourceFile where
  modules : List Tree
  place : Place

namespace SourceFile

/-- Nothing has been read. -/
def start : SourceFile :=
  ⟨[], .outside⟩

/-- Goes to another place without completing a module. -/
def goto (f : SourceFile) (place : Place) : SourceFile :=
  { f with place := place }

/-- The node of a module. -/
def moduleNode (source : Source) (start stop : Nat) (children : List Tree) : Tree :=
  nodeOver source .moduleDeclaration start stop children

/-- The body of a module behind an item that a refused token spoiled. -/
def afterSpoiled (source : Source) (start : Nat) (children : List Tree) (refused : Token)
    (stop : Nat) : Place :=
  .body start (children ++ [nodeOver source .error refused.start stop []]) .blank

/-- Refuses a token in the body of a module. A refused semicolon is itself the end of the
item that it spoils. -/
def refuse (source : Source) (f : SourceFile) (start : Nat) (children : List Tree) (t : Token) :
    SourceFile :=
  match t.terminal with
  | .punctuation .semicolon => f.goto (afterSpoiled source start children t t.stop)
  | _ => f.goto (.spoiled start children t t.stop)

/-- Reads a token. -/
def step (source : Source) (f : SourceFile) (t : Token) : SourceFile :=
  match f.place with
  | .outside =>
    match t.terminal with
    | .keyword .module => f.goto (.header t.start .blank)
    | _ => f.goto (.lost t)
  | .header start h =>
    match h.step source t with
    | some (.reading next) => f.goto (.header start next)
    | some (.complete children) => f.goto (.body start children .blank)
    | none => f.goto (.lost t)
  | .body start children item =>
    match item, t.terminal with
    | .blank, .keyword .endmodule => f.goto (.closed start t.stop children)
    | _, _ =>
      match item.step source t with
      | some (.reading next) => f.goto (.body start children next)
      | some (.complete node) => f.goto (.body start (children ++ [node]) .blank)
      | none => f.refuse source start children t
  | .closed start stop children =>
    match t.terminal with
    | .keyword .module =>
      ⟨f.modules ++ [moduleNode source start stop children], .header t.start .blank⟩
    | _ => f.refuse source start children t
  | .spoiled start children refused stop =>
    match t.terminal with
    | .punctuation .semicolon => f.goto (afterSpoiled source start children refused stop)
    | _ => f.goto (.spoiled start children refused t.stop)
  | .lost _ => f

/-- Reads a row of tokens. -/
def run (source : Source) (f : SourceFile) (ts : List Token) : SourceFile :=
  ts.foldl (step source) f

/-- Why what has been read is no source file. -/
inductive Incomplete where
  /-- A token was refused. -/
  | refused (t : Token)
  /-- Something is missing at the end. -/
  | ended

/-- The modules that have been read, if the file may end here. -/
def finish (source : Source) (f : SourceFile) : Except Incomplete (List Tree) :=
  match f.place with
  | .outside => .ok f.modules
  | .closed start stop children => .ok (f.modules ++ [moduleNode source start stop children])
  | .header _ _ | .body _ _ _ => .error .ended
  | .spoiled _ _ refused _ | .lost refused => .error (.refused refused)

end SourceFile

end Netlist.Grammar

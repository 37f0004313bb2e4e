/-
Reading the items of a module, one token at a time.

An item declares ports, declares nets or assigns to nets, and ends with a semicolon. Ports
are declared in the header of a module too, so the part of a declaration up to its first
name is a reader of its own.
-/
import Netlist.Grammar.Expression

set_option autoImplicit false

namespace Netlist.Grammar

/-- The direction that a keyword gives a port. -/
def directionNode? (source : Source) (t : Token) : Option Tree :=
  match t.terminal with
  | .keyword .input | .keyword .output | .keyword .inout =>
    some (tokenNode source .portDirection t)
  | _ => none

/-- The type that a keyword gives a net. -/
def netTypeNode? (source : Source) (t : Token) : Option Tree :=
  match t.terminal with
  | .keyword .wire | .keyword .logic | .keyword .reg => some (tokenNode source .netType t)
  | _ => none

/-- A name. -/
def nameNode? (source : Source) (t : Token) : Option Tree :=
  match t.terminal with
  | .identifier => some (tokenNode source .simpleIdentifier t)
  | _ => none

/-! ## Declarations up to their first name -/

/-- How far the part of a declaration before its first name has been read. -/
inductive HeadStage where
  /-- A net type, a range or the name may come. -/
  | direction
  /-- A range or the name may come. -/
  | netType
  /-- The upper bound of a range that opened at the given offset is being read. -/
  | upper (start : Nat) (e : Reader)
  /-- The upper bound is read, and the lower one is being read. -/
  | lower (start : Nat) (upper : Tree) (e : Reader)
  /-- The name has to come. -/
  | range

/-- The part of a declaration before its first name: the nodes read, and what may follow. -/
structure Head where
  parts : List Tree
  stage : HeadStage

namespace Head

/-- What a token does to a declaration before its first name. -/
inductive Step where
  /-- The token has been read, and the name is still to come. -/
  | reading (h : Head)
  /-- The token is the name. -/
  | named (parts : List Tree) (name : Tree)

/-- Reads the name. -/
def stepName (source : Source) (h : Head) (t : Token) : Option Step :=
  (nameNode? source t).map (.named h.parts)

/-- Reads the opening bracket of a range, or the name. -/
def stepRange (source : Source) (h : Head) (t : Token) : Option Step :=
  match t.terminal with
  | .punctuation .openBracket => some (.reading { h with stage := .upper t.start (.start .any) })
  | _ => h.stepName source t

/-- Reads a token, or refuses it. -/
def step (source : Source) (h : Head) (t : Token) : Option Step :=
  match h.stage with
  | .direction =>
    match netTypeNode? source t with
    | some netType => some (.reading ⟨h.parts ++ [netType], .netType⟩)
    | none => h.stepRange source t
  | .netType => h.stepRange source t
  | .upper start e =>
    match e.feed source t, t.terminal with
    | some (.reading next), _ => some (.reading { h with stage := .upper start next })
    | some (.complete upper), .punctuation .colon =>
      some (.reading { h with stage := .lower start upper (.start .any) })
    | _, _ => none
  | .lower start upper e =>
    match e.feed source t, t.terminal with
    | some (.reading next), _ => some (.reading { h with stage := .lower start upper next })
    | some (.complete lower), .punctuation .closeBracket =>
      let range := nodeOver source .packedDimension start t.stop [upper, lower]
      some (.reading ⟨h.parts ++ [range], .range⟩)
    | _, _ => none
  | .range => h.stepName source t

end Head

/-- The declaration of a port of which everything up to the first name has been read. -/
def portNode (parts : List Tree) (name : Tree) : Tree :=
  .spanning .portDeclaration (parts ++ [name])

/-! ## Items -/

/-- How far an item has been read. -/
inductive Item where
  /-- Nothing has been read. -/
  | blank
  /-- The declaration of a port, before its first name. -/
  | port (h : Head)
  /-- The declaration of a port, right after a name. -/
  | portNamed (declaration : Tree)
  /-- The declaration of a port, right after a comma. -/
  | portComma (declaration : Tree)
  /-- The declaration of a net, before its first name. -/
  | net (h : Head)
  /-- The declaration of a net, right after a name; `parts` stands before it. -/
  | netNamed (parts : List Tree) (name : Tree)
  /-- The declaration of a net, in the expression that defines the name. -/
  | netValue (parts : List Tree) (name : Tree) (e : Reader)
  /-- The declaration of a net, right after a comma. -/
  | netComma (parts : List Tree)
  /-- An assignment, in the target; the keyword stands at the given offset, and `parts`
  are the assignments before. -/
  | target (start : Nat) (parts : List Tree) (e : Reader)
  /-- An assignment, in the expression that defines the target. -/
  | value (start : Nat) (parts : List Tree) (target : Tree) (e : Reader)

namespace Item

/-- What a token does to an item. -/
inductive Step where
  /-- The token has been read, and the item goes on. -/
  | reading (i : Item)
  /-- The token is the semicolon that ends the item. -/
  | complete (t : Tree)

/-- Reads the sign after a part of a net declaration. -/
def stepNetPart (parts : List Tree) (t : Token) : Option Step :=
  match t.terminal with
  | .punctuation .comma => some (.reading (.netComma parts))
  | .punctuation .semicolon => some (.complete (.spanning .netDeclaration parts))
  | _ => none

/-- Reads the sign after an assignment. -/
def stepAssignment (source : Source) (start : Nat) (parts : List Tree) (last : Tree) (t : Token) :
    Option Step :=
  match t.terminal with
  | .punctuation .comma => some (.reading (.target start (parts ++ [last]) (.start .operand)))
  | .punctuation .semicolon =>
    some (.complete
      (nodeOver source .continuousAssign start last.location.stop (parts ++ [last])))
  | _ => none

/-- Reads the first token of an item. -/
def stepBlank (source : Source) (t : Token) : Option Step :=
  match directionNode? source t, netTypeNode? source t, t.terminal with
  | some direction, _, _ => some (.reading (.port ⟨[direction], .direction⟩))
  | none, some netType, _ => some (.reading (.net ⟨[netType], .netType⟩))
  | none, none, .keyword .assign => some (.reading (.target t.start [] (.start .operand)))
  | _, _, _ => none

/-- Reads a token, or refuses it. -/
def step (source : Source) (i : Item) (t : Token) : Option Step :=
  match i with
  | .blank => stepBlank source t
  | .port h =>
    (h.step source t).map fun
      | .reading next => .reading (.port next)
      | .named parts name => .reading (.portNamed (portNode parts name))
  | .portNamed declaration =>
    match t.terminal with
    | .punctuation .comma => some (.reading (.portComma declaration))
    | .punctuation .semicolon => some (.complete declaration)
    | _ => none
  | .portComma declaration =>
    (nameNode? source t).map fun name => .reading (.portNamed (declaration.extend name))
  | .net h =>
    (h.step source t).map fun
      | .reading next => .reading (.net next)
      | .named parts name => .reading (.netNamed parts name)
  | .netNamed parts name =>
    match t.terminal with
    | .punctuation .equals => some (.reading (.netValue parts name (.start .any)))
    | _ => stepNetPart (parts ++ [name]) t
  | .netValue parts name e =>
    match e.feed source t with
    | some (.reading next) => some (.reading (.netValue parts name next))
    | some (.complete whole) =>
      stepNetPart (parts ++ [.spanning .netDeclAssignment [name, whole]]) t
    | none => none
  | .netComma parts =>
    (nameNode? source t).map fun name => .reading (.netNamed parts name)
  | .target start parts e =>
    match e.feed source t, t.terminal with
    | some (.reading next), _ => some (.reading (.target start parts next))
    | some (.complete whole), .punctuation .equals =>
      some (.reading (.value start parts whole (.start .any)))
    | _, _ => none
  | .value start parts left e =>
    match e.feed source t with
    | some (.reading next) => some (.reading (.value start parts left next))
    | some (.complete whole) =>
      stepAssignment source start parts (.spanning .netAssignment [left, whole]) t
    | none => none

end Item

end Netlist.Grammar

/-
Reading the header of a module, one token at a time.

A header is the name of the module, its ports in parentheses and a semicolon. A port that
is a bare name belongs to the declaration before it; bare names before any declaration are
a list of ports that the body of the module declares.
-/
import Netlist.Grammar.Item

set_option autoImplicit false

namespace Netlist.Grammar

/-! ## The ports of a header -/

/-- The ports read so far: bare names before any declaration, and declarations. -/
structure Ports where
  bare : List Tree
  declared : List Tree

namespace Ports

/-- No ports. -/
def none : Ports :=
  ⟨[], []⟩

/-- Adds a declaration. -/
def addDeclaration (p : Ports) (declaration : Tree) : Ports :=
  { p with declared := p.declared ++ [declaration] }

/-- Adds a bare name to the last declaration, or to the list of ports if there is none. -/
def addName (p : Ports) (name : Tree) : Ports :=
  match p.declared.getLast? with
  | some last => { p with declared := p.declared.dropLast ++ [last.extend name] }
  | .none => { p with bare := p.bare ++ [name] }

/-- The nodes of the ports. -/
def nodes (p : Ports) : List Tree :=
  match p.bare with
  | [] => p.declared
  | bare => .spanning .listOfPorts bare :: p.declared

end Ports

/-! ## Headers -/

/-- How far a header has been read. -/
inductive Header where
  /-- The name has to come. -/
  | blank
  /-- The name has been read. -/
  | named (name : Tree)
  /-- The opening parenthesis has been read. -/
  | opened (name : Tree)
  /-- The declaration of a port, before its name. -/
  | port (name : Tree) (ports : Ports) (h : Head)
  /-- A port has been read. -/
  | portRead (name : Tree) (ports : Ports)
  /-- A comma has been read. -/
  | portComma (name : Tree) (ports : Ports)
  /-- The closing parenthesis has been read. -/
  | closed (name : Tree) (ports : Ports)

namespace Header

/-- What a token does to a header. -/
inductive Step where
  /-- The token has been read, and the header goes on. -/
  | reading (h : Header)
  /-- The token is the semicolon that ends the header. -/
  | complete (children : List Tree)

/-- Reads the first token of a port. -/
def stepPort (source : Source) (name : Tree) (ports : Ports) (t : Token) : Option Step :=
  match directionNode? source t, nameNode? source t with
  | some direction, _ => some (.reading (.port name ports ⟨[direction], .direction⟩))
  | none, some bare => some (.reading (.portRead name (ports.addName bare)))
  | none, none => none

/-- Reads a token, or refuses it. -/
def step (source : Source) (h : Header) (t : Token) : Option Step :=
  match h with
  | .blank => (nameNode? source t).map fun name => .reading (.named name)
  | .named name =>
    match t.terminal with
    | .punctuation .openParen => some (.reading (.opened name))
    | .punctuation .semicolon => some (.complete [name])
    | _ => none
  | .opened name =>
    match t.terminal with
    | .punctuation .closeParen => some (.reading (.closed name .none))
    | _ => stepPort source name .none t
  | .port name ports head =>
    (head.step source t).map fun
      | .reading next => .reading (.port name ports next)
      | .named parts portName =>
        .reading (.portRead name (ports.addDeclaration (portNode parts portName)))
  | .portRead name ports =>
    match t.terminal with
    | .punctuation .comma => some (.reading (.portComma name ports))
    | .punctuation .closeParen => some (.reading (.closed name ports))
    | _ => none
  | .portComma name ports => stepPort source name ports t
  | .closed name ports =>
    match t.terminal with
    | .punctuation .semicolon => some (.complete (name :: ports.nodes))
    | _ => none

end Header

end Netlist.Grammar

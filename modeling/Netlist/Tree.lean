/-
Trees of source text.

A tree says how a source text is put together: each node has a kind, the range of text it
covers and its children in the order in which they stand. Operators, names and numbers are
nodes without children, and what they say is the text they cover.

A tree need not come from a text. Trees can be put together by hand, with any number of
children at a node and with kinds that the grammar does not know.
-/
import Netlist.Source

set_option autoImplicit false

namespace Netlist

/-! ## Kinds -/

/-- What a node stands for. -/
inductive NodeKind where
  | sourceFile
  | moduleDeclaration
  | listOfPorts
  | portDeclaration
  | portDirection
  | netType
  | packedDimension
  | netDeclaration
  | netDeclAssignment
  | continuousAssign
  | netAssignment
  | simpleIdentifier
  | number
  | parenthesizedExpression
  | conditionalExpression
  | unaryExpression
  | unaryOperator
  | binaryExpression
  | binaryOperator
  | concatenation
  | multipleConcatenation
  | bitSelect
  | rangeSelect
  | indexedRangeSelect
  | indexedRangeOperator
  /-- Text that fits the grammar nowhere. -/
  | error
  /-- A kind that the grammar does not know. -/
  | other (name : String)
deriving DecidableEq

namespace NodeKind

/-- The name of a kind in messages. -/
def name : NodeKind → String
  | sourceFile => "source_file"
  | moduleDeclaration => "module_declaration"
  | listOfPorts => "list_of_ports"
  | portDeclaration => "port_declaration"
  | portDirection => "port_direction"
  | netType => "net_type"
  | packedDimension => "packed_dimension"
  | netDeclaration => "net_declaration"
  | netDeclAssignment => "net_decl_assignment"
  | continuousAssign => "continuous_assign"
  | netAssignment => "net_assignment"
  | simpleIdentifier => "simple_identifier"
  | number => "number"
  | parenthesizedExpression => "parenthesized_expression"
  | conditionalExpression => "conditional_expression"
  | unaryExpression => "unary_expression"
  | unaryOperator => "unary_operator"
  | binaryExpression => "binary_expression"
  | binaryOperator => "binary_operator"
  | concatenation => "concatenation"
  | multipleConcatenation => "multiple_concatenation"
  | bitSelect => "bit_select"
  | rangeSelect => "range_select"
  | indexedRangeSelect => "indexed_range_select"
  | indexedRangeOperator => "indexed_range_operator"
  | error => "ERROR"
  | other name => name

/-- The kinds that the grammar knows. -/
def known : List NodeKind :=
  [sourceFile, moduleDeclaration, listOfPorts, portDeclaration, portDirection, netType,
    packedDimension, netDeclaration, netDeclAssignment, continuousAssign, netAssignment,
    simpleIdentifier, number, parenthesizedExpression, conditionalExpression, unaryExpression,
    unaryOperator, binaryExpression, binaryOperator, concatenation, multipleConcatenation,
    bitSelect, rangeSelect, indexedRangeSelect, indexedRangeOperator, error]

/-- The kind of the given name. -/
def ofName (name : String) : NodeKind :=
  match known.find? fun k => k.name == name with
  | some k => k
  | none => other name

end NodeKind

/-! ## Trees -/

/-- A node with the text it covers and its children. -/
inductive Tree where
  | node (kind : NodeKind) (location : Location) (children : List Tree)

namespace Tree

/-- What the node stands for. -/
def kind : Tree → NodeKind
  | node k _ _ => k

/-- The range of text that the node covers. -/
def location : Tree → Location
  | node _ l _ => l

/-- The children in the order in which they stand. -/
def children : Tree → List Tree
  | node _ _ ts => ts

/-- The text that the node covers. -/
def text (t : Tree) : String :=
  t.location.text

/-- The range of text that the node covers, if the node stands in a source. -/
def location? (t : Tree) : Option Location :=
  t.location.known?

@[simp] theorem kind_node (k : NodeKind) (l : Location) (ts : List Tree) :
    (node k l ts).kind = k := rfl

@[simp] theorem location_node (k : NodeKind) (l : Location) (ts : List Tree) :
    (node k l ts).location = l := rfl

@[simp] theorem children_node (k : NodeKind) (l : Location) (ts : List Tree) :
    (node k l ts).children = ts := rfl

/-! ## Looking around -/

/-- The first child of a kind. -/
def child? (t : Tree) (k : NodeKind) : Option Tree :=
  t.children.find? fun c => c.kind == k

/-- The children of a kind. -/
def childrenOf (t : Tree) (k : NodeKind) : List Tree :=
  t.children.filter fun c => c.kind == k

mutual

/-- The nodes of a kind below the root, in the order in which they start. -/
def descendants (k : NodeKind) : Tree → List Tree
  | node _ _ ts => descendantsIn k ts

/-- The nodes of a kind in a row of trees, roots included. -/
def descendantsIn (k : NodeKind) : List Tree → List Tree
  | [] => []
  | t :: ts =>
    let below := descendants k t ++ descendantsIn k ts
    if t.kind = k then t :: below else below

end

/-! ## Putting trees together -/

/-- A node that covers all text from its first child to its last. -/
def spanning (k : NodeKind) (ts : List Tree) : Tree :=
  match ts.head?, ts.getLast? with
  | some first, some last => node k (first.location.join last.location) ts
  | _, _ => node k .unknown ts

/-- The node with one more child behind the others, whose text it covers as well. -/
def extend (t : Tree) (more : Tree) : Tree :=
  node t.kind (t.location.join more.location) (t.children ++ [more])

/-- A node without children in a source of its own, which is exactly its text. -/
def leaf (k : NodeKind) (text : String) : Tree :=
  let source := Source.ofText text
  node k ⟨source, 0, source.byteLength⟩ []

/-- A node that covers no text. -/
def branch (k : NodeKind) (ts : List Tree) : Tree :=
  node k .unknown ts

end Tree

end Netlist

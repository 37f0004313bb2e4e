/-
From trees to modules.

A module of a tree is read in three passes: over its ports, over its net declarations and
over its assignments. Each pass adds to a draft, which then becomes the module. The passes
never stop: a part that does not fit is left out and recorded. Only a tree without the
wanted module, or with an error node inside it, has no module at all.

The wires of the module stand in the order of their definitions, those in net declarations
before those in assignments.
-/
import Netlist.Expr.OfTree
import Netlist.Module

set_option autoImplicit false

namespace Netlist

/-! ## Errors -/

/-- Why a tree has no module. -/
inductive ModuleError where
  /-- The root is not a source file. -/
  | notSourceFile (kind : NodeKind)
  /-- There is no module. -/
  | noModule
  /-- There is no module of the wanted name. -/
  | noSuchModule (name : String)
  /-- The module has a part that fits the grammar nowhere. -/
  | brokenModule (location : Option Location)

/-- The text that reports the error. -/
def ModuleError.message : ModuleError → String
  | notSourceFile kind =>
    s!"Expected a source file at the root of the syntax tree but found `{kind.name}`"
  | noModule => "No module declaration found"
  | noSuchModule name => s!"No such module: {name}"
  | brokenModule none => "Syntax error"
  | brokenModule (some location) => s!"Syntax error at {location}"

namespace Tree

/-- What the node says, without blanks around it. -/
def word (t : Tree) : String :=
  Text.trim t.text

/-- The name of a module. -/
def moduleName (t : Tree) : String :=
  match t.child? .simpleIdentifier with
  | some name => name.word
  | none => ""

/-- The number of bits that a declaration asks for: the distance between the bounds of its
range, both included, or one bit without a range. -/
def declaredWidth (t : Tree) : Logged Nat :=
  match t.child? .packedDimension with
  | none => pure 1
  | some range =>
    let width? :=
      match range.children with
      | [upper, lower] =>
        match upper.constant?, lower.constant? with
        | some m, some n =>
          let width := (m - n).natAbs + 1
          if width < Count.limit then some width else none
        | _, _ => none
      | _ => none
    match width? with
    | some width => pure width
    | none => do
      Logged.warn range.location? (.unusableRange range.text)
      return 1

end Tree

/-! ## Drafts -/

/-- A signal that is declared but may not have a definition yet. -/
structure Net where
  width : Nat
  /-- The declaration is that of a port, which may still be declared as a net. -/
  isPort : Bool
  location : Option Location

/-- A module in the making. -/
structure Draft where
  inputs : List Input
  nets : NameMap Net
  outputs : List String
  wires : List Wire

namespace Draft

/-- Nothing has been read. -/
def start : Draft :=
  ⟨[], NameMap.empty, [], []⟩

/-- The name is that of an input. -/
def isInput (d : Draft) (name : String) : Bool :=
  d.inputs.any fun i => i.name == name

/-- Some wire has the name. -/
def isDefined (d : Draft) (name : String) : Bool :=
  d.wires.any fun w => w.name == name

/-! ### Ports -/

/-- Adds a port of the given direction and width. -/
def addPort (isInput : Bool) (width : Nat) (d : Draft) (nameNode : Tree) : Logged Draft :=
  let name := nameNode.word
  if d.isInput name || d.nets.contains name then do
    Logged.warn nameNode.location? (.repeatedPort name)
    return d
  else if isInput then
    return { d with inputs := d.inputs ++ [⟨name, width⟩] }
  else
    return { d with
      outputs := d.outputs ++ [name]
      nets := d.nets.insert name ⟨width, true, nameNode.location?⟩ }

/-- Adds the ports of a declaration. Whatever is not an input counts as an output. -/
def addPorts (d : Draft) (declaration : Tree) : Logged Draft := do
  let isInput :=
    match declaration.child? .portDirection with
    | some direction => direction.word == "input"
    | none => false
  let width ← declaration.declaredWidth
  (declaration.childrenOf .simpleIdentifier).foldlM (addPort isInput width) d

/-- Records a listed port that no declaration mentions. -/
def checkListed (d : Draft) (nameNode : Tree) : Logged Unit :=
  let name := nameNode.word
  if d.isInput name || d.nets.contains name then pure ()
  else Logged.warn nameNode.location? (.undeclaredPort name)

/-- Reads the ports of a module. -/
def readPorts (d : Draft) (module : Tree) : Logged Draft := do
  let d ← (module.descendants .portDeclaration).foldlM addPorts d
  (module.childrenOf .listOfPorts).forM fun list =>
    (list.childrenOf .simpleIdentifier).forM (checkListed d)
  return d

/-! ### Nets -/

/-- Adds a definition of a signal. -/
def define (d : Draft) (name : String) (e : Tree) (location : Option Location) :
    Logged Draft := do
  let width := ((d.nets.get? name).map Net.width).getD 1
  match ← (Expr.ofTree e).run with
  | some e => return { d with wires := d.wires ++ [⟨name, width, e, e.signals, location⟩] }
  | none =>
    Logged.warn location (.skippedDefinition name)
    return d

/-- Adds the declaration of a net. An output may be declared once more, as a net. -/
def declareNet (d : Draft) (name : String) (width : Nat) (location : Option Location) :
    Logged Draft := do
  match d.nets.get? name with
  | none => return { d with nets := d.nets.insert name ⟨width, false, location⟩ }
  | some net =>
    if net.isPort then
      if net.width ≠ width then
        Logged.warn location (.changedWidth name width net.width)
      return { d with nets := d.nets.insert name ⟨width, false, location⟩ }
    else
      Logged.warn location (.repeatedNet name)
      return d

/-- Adds a net with its definition, if it has one. Inputs are left alone. -/
def addNet (d : Draft) (width : Nat) (item nameNode : Tree) (definition : Option Tree) :
    Logged Draft := do
  let name := nameNode.word
  if d.isInput name then
    if definition.isSome then
      Logged.warn item.location? (.assignedInput name)
    return d
  else
    let d ← d.declareNet name width nameNode.location?
    match definition with
    | some e => d.define name e item.location?
    | none => return d

/-- Adds a child of a net declaration, if it is a net. -/
def addNetItem (width : Nat) (d : Draft) (item : Tree) : Logged Draft :=
  match item.kind, item.children with
  | .simpleIdentifier, _ => d.addNet width item item none
  | .netDeclAssignment, [nameNode, e] => d.addNet width item nameNode (some e)
  | .netDeclAssignment, _ => do
    Logged.warn item.location? .malformedDefinition
    return d
  | _, _ => return d

/-- Adds the nets of a declaration. -/
def addNets (d : Draft) (declaration : Tree) : Logged Draft := do
  let width ← declaration.declaredWidth
  declaration.children.foldlM (addNetItem width) d

/-- Reads the net declarations of a module. -/
def readNets (d : Draft) (module : Tree) : Logged Draft :=
  (module.descendants .netDeclaration).foldlM addNets d

/-! ### Assignments -/

/-- Adds an assignment, if its target can be assigned. -/
def addAssignment (d : Draft) (assignment : Tree) : Logged Draft := do
  match assignment.children with
  | [target, e] =>
    let name := target.word
    if target.kind ≠ .simpleIdentifier then
      Logged.warn target.location? (.unsupportedTarget target.text)
      return d
    else if d.isInput name then
      Logged.warn assignment.location? (.assignedInput name)
      return d
    else if !d.nets.contains name then
      Logged.warn assignment.location? (.undeclaredTarget name)
      return d
    else
      d.define name e assignment.location?
  | _ =>
    Logged.warn assignment.location? .malformedAssignment
    return d

/-- Reads the assignments of a module. -/
def readAssignments (d : Draft) (module : Tree) : Logged Draft :=
  (module.descendants .continuousAssign).foldlM
    (fun d assign => (assign.childrenOf .netAssignment).foldlM addAssignment d) d

/-! ### The finished module -/

/-- Keeps the first wire of each name; `kept` are the wires kept so far. -/
def keepWire (d : Draft) (kept : List Wire) (w : Wire) : Logged (List Wire) :=
  if d.isInput w.name then do
    Logged.warn w.location (.wireNamedAsInput w.name)
    return kept
  else if kept.any fun k => k.name == w.name then do
    Logged.warn w.location (.repeatedWire w.name)
    return kept
  else
    return kept ++ [{ w with deps := w.deps.filter fun name => !d.isInput name }]

/-- Records an output without a definition. -/
def checkOutput (d : Draft) (name : String) : Logged Unit :=
  if d.isDefined name then pure ()
  else Logged.warn ((d.nets.get? name).bind Net.location) (.undefinedOutput name)

/-- Records a net without a definition, unless it is an output. -/
def checkNet (d : Draft) (net : String × Net) : Logged Unit :=
  if d.isDefined net.1 || d.outputs.contains net.1 then pure ()
  else Logged.inform net.2.location (.undefinedNet net.1)

/-- The module of a draft. -/
def finish (d : Draft) (name : String) : Logged Module := do
  let d := { d with wires := ← d.wires.foldlM d.keepWire [] }
  d.outputs.forM d.checkOutput
  d.nets.entries.forM d.checkNet
  return ⟨name, d.inputs, d.wires, d.outputs⟩

/-- The module of a tree that is known to be whole. -/
def assemble (module : Tree) : Logged Module := do
  let d ← start.readPorts module
  let d ← d.readNets module
  let d ← d.readAssignments module
  d.finish module.moduleName

end Draft

/-! ## Modules -/

namespace Module

/-- The module of a name among the modules of a file, or the first one. -/
def choose (modules : List Tree) : Option String → Except ModuleError Tree
  | none =>
    match modules with
    | [] => .error .noModule
    | module :: _ => .ok module
  | some name =>
    match modules.find? fun t => t.moduleName == name with
    | some module => .ok module
    | none => .error (.noSuchModule name)

/-- The wanted module of a source file, if it is whole. -/
def select (root : Tree) (top : Option String) : Except ModuleError Tree := do
  if root.kind ≠ .sourceFile then
    throw (.notSourceFile root.kind)
  let module ← choose (root.descendants .moduleDeclaration) top
  match module.descendants .error with
  | [] => return module
  | e :: _ => throw (.brokenModule e.location?)

/-- The module of a name in a source file, or its first module. -/
def ofTree (root : Tree) (top : Option String) : ExceptT ModuleError Logged Module :=
  match select root top with
  | .ok module => ExceptT.lift (Draft.assemble module)
  | .error e => throw e

end Module

end Netlist

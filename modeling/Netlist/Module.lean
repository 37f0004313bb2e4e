/-
Modules: ports and the wires that define every other signal.

The wires of a module stand in some order. Evaluation goes through them in that order, so a
module is ready for it when each wire comes after all wires that it reads.
-/
import Netlist.Expr
import Netlist.Source

set_option autoImplicit false

namespace Netlist

/-! ## The types -/

/-- A signal that is set from outside. -/
structure Input where
  name : String
  width : Nat
deriving DecidableEq

/-- A signal that is defined by an expression. -/
structure Wire where
  name : String
  width : Nat
  definition : Expr
  /-- The signals that the wire has to come after, except for inputs. -/
  deps : NameSet
  /-- Where the wire is defined, if that is known. -/
  location : Option Location
deriving DecidableEq

/-- A module. -/
structure Module where
  name : String
  inputs : List Input
  wires : List Wire
  outputs : List String
deriving DecidableEq

/-- A wire that has to come after all signals that its expression reads. -/
def Wire.ofExpr (name : String) (width : Nat) (e : Expr) : Wire :=
  ⟨name, width, e, e.signals, none⟩

namespace Module

/-! ## Questions about a module -/

/-- The input of a name. -/
def input? (m : Module) (name : String) : Option Input :=
  m.inputs.find? fun i => i.name == name

/-- The first wire of a name. -/
def wire? (m : Module) (name : String) : Option Wire :=
  m.wires.find? fun w => w.name == name

/-- The name is that of an input. -/
def isInput (m : Module) (name : String) : Bool :=
  (m.input? name).isSome

/-- The name is that of an output. -/
def isOutput (m : Module) (name : String) : Bool :=
  m.outputs.contains name

/-- The names of the wires, in their order. -/
def wireNames (m : Module) : List String :=
  m.wires.map Wire.name

/-! ## Comparing modules -/

/-- The module without any mention of where its wires are defined. -/
def withoutLocations (m : Module) : Module :=
  { m with wires := m.wires.map fun w => { w with location := none } }

/-- Two modules say the same: they differ at most in where their wires are defined. -/
def agrees (m n : Module) : Bool :=
  m.withoutLocations == n.withoutLocations

end Module

end Netlist

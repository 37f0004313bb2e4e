/-
Sessions: working with one module after another.

A session holds the module that was loaded last, the inputs that are set, and the values of
the last simulation that succeeded. What fails leaves the session as it was. Inputs belong
to the session and not to the module: they stay when another module is loaded, and may name
signals that the module does not have.
-/
import Netlist.Module.Load
import Netlist.Module.Simulate

set_option autoImplicit false

namespace Netlist

/-- A module, inputs for it, and the values of its signals. -/
structure Session where
  module? : Option Module
  inputs : Env
  values : Env

/-- What there is to know about a name in a module. -/
structure SignalInfo where
  isInput : Bool
  isOutput : Bool
  inputWidth : Option Nat
  definition : Option Expr

namespace Session

/-- Nothing is loaded, nothing is set. -/
def start : Session :=
  ⟨none, NameMap.empty, NameMap.empty⟩

/-! ## Modules -/

/-- Loads a module. -/
def load (s : Session) (source : Source) (top : Option String) :
    Logged (Except LoadError Module) × Session :=
  let result := (Module.load source top).run
  match result.value with
  | .ok m => (result, { s with module? := some m })
  | .error _ => (result, s)

/-- What the loaded module has under a name. -/
def query (s : Session) (name : String) : Option SignalInfo :=
  s.module?.map fun m =>
    { isInput := m.isInput name
      isOutput := m.isOutput name
      inputWidth := (m.input? name).map Input.width
      definition := (m.wire? name).map Wire.definition }

/-- Whether the wires of the loaded module stay in place when they are put into order. -/
def isScheduled (s : Session) : Option Bool :=
  s.module?.map fun m =>
    match m.schedule with
    | .ok n => n.agrees m
    | .error _ => false

/-! ## Inputs -/

/-- Sets an input. -/
def set (s : Session) (name : String) (w : Word) : Session :=
  { s with inputs := s.inputs.insert name w }

/-- Sets an input to what a literal says. -/
def setLiteral (s : Session) (name text : String) : Except LiteralError Session :=
  (Literal.read text).map (s.set name)

/-- Takes back what an input was set to. -/
def unset (s : Session) (name : String) : Session :=
  { s with inputs := s.inputs.erase name }

/-- Sets the inputs of the loaded module to the values that they had last. -/
def carry (s : Session) : Option Session :=
  s.module?.map fun m => { s with inputs := m.carryInputs s.values }

/-! ## Simulation -/

/-- Simulates the loaded module with the inputs that are set. -/
def simulate (s : Session) : Option (Logged (Except EvalError Env) × Session) :=
  s.module?.map fun m =>
    let result := (m.simulate s.inputs).run
    match result.value with
    | .ok env => (result, { s with values := env })
    | .error _ => (result, s)

end Session

end Netlist

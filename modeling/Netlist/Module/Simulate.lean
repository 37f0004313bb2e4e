/-
Simulation: the values of all signals for given inputs.

The inputs are bound first, each at its own width, and then the wires in the order of the
module. The result binds exactly these signals. Names that are bound but are no inputs are
recorded and left out. `simulateWith` is told what the build makes of sums of widths that
overflow, and `simulate` lets them wrap around.
-/
import Netlist.Expr.Eval
import Netlist.Module

set_option autoImplicit false

namespace Netlist.Module

/-! ## Inputs -/

/-- The word that an input takes: what is given, made to fit, or zero. -/
def inputValue (given : Env) (i : Input) : Logged Word :=
  match given.get? i.name with
  | none => return .zero i.width
  | some w =>
    if w.width = i.width then return w
    else do
      Logged.warn none (.resizedInput i.name w i.width)
      return w.resize i.width

/-- Binds an input. -/
def bindInput (given env : Env) (i : Input) : Logged Env := do
  return env.insert i.name (← inputValue given i)

/-- The environment of the inputs alone. -/
def bindInputs (m : Module) (given : Env) : Logged Env := do
  let env ← m.inputs.foldlM (bindInput given) NameMap.empty
  given.keys.forM fun name =>
    if m.isInput name then pure () else Logged.warn none (.unknownInput name)
  return env

/-! ## Wires -/

/-- The word that a wire takes: the value of its expression, made to fit. -/
def wireValueWith (mode : Overflow) (env : Env) (w : Wire) : Evaluation Word := do
  let v ← w.definition.evalWith mode env
  if v.width = w.width then return v
  else
    ExceptT.lift (Logged.warn w.location (.resizedWire w.name w.width v))
    return v.resize w.width

/-- Binds a wire. -/
def bindWireWith (mode : Overflow) (env : Env) (w : Wire) : Evaluation Env := do
  return env.insert w.name (← wireValueWith mode env w)

/-- The values of all signals of a module whose wires stand in the order of evaluation, in a
build that treats overflow as told. -/
def simulateWith (mode : Overflow) (m : Module) (given : Env) : Evaluation Env := do
  let env ← ExceptT.lift (m.bindInputs given)
  m.wires.foldlM (bindWireWith mode) env

/-! ## The build that does not check -/

/-- The word that a wire takes. -/
def wireValue (env : Env) (w : Wire) : Evaluation Word :=
  wireValueWith .wraps env w

/-- Binds a wire. -/
def bindWire (env : Env) (w : Wire) : Evaluation Env :=
  bindWireWith .wraps env w

/-- The values of all signals of a module whose wires stand in the order of evaluation. -/
def simulate (m : Module) (given : Env) : Evaluation Env :=
  m.simulateWith .wraps given

theorem wireValue_eq (env : Env) (w : Wire) :
    wireValue env w = (do
      let v ← w.definition.eval env
      if v.width = w.width then return v
      else
        ExceptT.lift (Logged.warn w.location (.resizedWire w.name w.width v))
        return v.resize w.width) := rfl

theorem bindWire_eq (env : Env) (w : Wire) :
    bindWire env w = (do return env.insert w.name (← wireValue env w)) := rfl

theorem simulate_eq (m : Module) (given : Env) :
    m.simulate given = (do
      let env ← ExceptT.lift (m.bindInputs given)
      m.wires.foldlM bindWire env) := rfl

/-! ## From one module to another -/

/-- Inputs for a module from the values of an earlier run: the same numbers at the widths
of this module, and zero for what had no value. -/
def carryInputs (m : Module) (previous : Env) : Env :=
  m.inputs.foldl
    (fun env i =>
      let value :=
        match previous.get? i.name with
        | some w => w.resize i.width
        | none => .zero i.width
      env.insert i.name value)
    NameMap.empty

end Netlist.Module

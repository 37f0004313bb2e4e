/-
Reports: the values of a module for people and for programs.

The text report has one line for each input, wire and undefined output, behind a line for
the module. The JSON report has the same values and the diagnostics besides.
-/
import Netlist.Json
import Netlist.Module.Simulate
import Netlist.Word.Text

set_option autoImplicit false

namespace Netlist.Report

/-! ## Text -/

/-- The line of an input. -/
def inputLine? (env : Env) (r : Radix) (i : Input) : Option String :=
  (env.get? i.name).map fun w => s!"  input  {i.name} = {w.render r}"

/-- The line of a wire. -/
def wireLine? (m : Module) (env : Env) (r : Radix) (w : Wire) : Option String :=
  (env.get? w.name).map fun v =>
    let mark := if m.isOutput w.name then "output" else "wire  "
    s!"  {mark} {w.name} = {v.render r}"

/-- The line of an output that has no value. -/
def undefinedLine? (env : Env) (name : String) : Option String :=
  if env.contains name then none else some s!"  output {name} is undefined"

/-- The lines of the text report. -/
def lines (m : Module) (env : Env) (r : Radix) : List String :=
  s!"module {m.name}" ::
    (m.inputs.filterMap (inputLine? env r) ++ m.wires.filterMap (wireLine? m env r) ++
      m.outputs.filterMap (undefinedLine? env))

/-- The text report. -/
def text (m : Module) (env : Env) (r : Radix) : String :=
  String.join ((lines m env r).map (· ++ "\n"))

/-! ## JSON -/

/-- The values of the inputs by their names. -/
def inputFields (m : Module) (env : Env) (r : Radix) : NameMap Json :=
  NameMap.ofList (m.inputs.filterMap fun i =>
    (env.get? i.name).map fun w => (i.name, Json.string (w.render r)))

/-- A wire. -/
def wireJson (env : Env) (r : Radix) (w : Wire) : Json :=
  .object [
    ("deps", .array (w.deps.keys.map .string)),
    ("expr", .string w.definition.text),
    ("name", .string w.name),
    ("value", .ofText? ((env.get? w.name).map fun v => v.render r)),
    ("width", .number w.width)]

/-- A diagnostic. -/
def diagnosticJson (d : Diagnostic) : Json :=
  .object [
    ("loc", .ofText? (d.location.map toString)),
    ("message", .string d.message),
    ("severity", .string d.severity.name)]

/-- The JSON report. -/
def json (m : Module) (env : Env) (log : Log) (r : Radix) : Json :=
  .object [
    ("diagnostics", .array (log.map diagnosticJson)),
    ("inputs", .ofMap (inputFields m env r)),
    ("module", .string m.name),
    ("outputs", .array (m.outputs.map .string)),
    ("wires", .array (m.wires.map (wireJson env r)))]

end Netlist.Report

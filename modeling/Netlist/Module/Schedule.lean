/-
The order of evaluation.

A wire can be evaluated once all wires that it reads have been. `schedule` puts the wires
of a module into such an order. A queue holds the wires that are ready, at first those that
read no wire, in the order of the module. The wire at the front is done; then every wire
that reads it waits for one wire less, and joins the queue when it waits for none. A wire
that never gets ready stands on a cycle or reads, directly or not, one that does.
-/
import Netlist.Module

set_option autoImplicit false

namespace Netlist

/-! ## Errors -/

/-- Why the wires of a module cannot be put into order. -/
inductive ScheduleError where
  /-- Two wires have one name. -/
  | repeatedWire (name : String)
  /-- A wire reads a name that is neither an input nor a wire. -/
  | missing (wire dependency : String)
  /-- Some wires never get ready. -/
  | cycle (wires : List String)
deriving DecidableEq

/-- The text that reports the error. -/
def ScheduleError.message : ScheduleError → String
  | repeatedWire name => s!"Wire is defined more than once: {name}"
  | missing wire dependency =>
    s!"Dependency not found: {wire} depends on {dependency}, which is neither a wire nor an input"
  | cycle wires => "Cycle detected among: " ++ String.intercalate ", " wires

/-! ## Which wire reads which -/

namespace Module

/-- The names that a wire has to come after, except for inputs. -/
def needs (m : Module) (w : Wire) : List String :=
  w.deps.keys.filter fun name => !m.isInput name

/-- The places of the wires that a wire has to come after. -/
def sources (m : Module) (w : Wire) : List Nat :=
  (m.needs w).filterMap fun name => m.wires.findIdx? fun v => v.name == name

/-- The first name that stands in a list for the second time; `seen` stood before. -/
def firstRepeated (seen : List String) : List String → Option String
  | [] => none
  | name :: rest => if seen.contains name then some name else firstRepeated (name :: seen) rest

/-- The first wire that has to come after a name that no wire has, and the first such name
of that wire. -/
def firstMissing (m : Module) : Option (String × String) :=
  m.wires.findSome? fun w =>
    ((m.needs w).find? fun name => !m.wires.any fun v => v.name == name).map (w.name, ·)

end Module

/-! ## The queue -/

/-- Wires by their places: those that are done, in order, those that are ready, and for how
many wires each one waits. -/
structure Queue where
  done : List Nat
  ready : List Nat
  waiting : List Nat
deriving DecidableEq

namespace Queue

/-- The places in a list of what passes a test. -/
def places {α : Type} (test : α → Bool) (xs : List α) : List Nat :=
  (xs.zipIdx.filter fun (x, _) => test x).map fun (_, i) => i

/-- At first a wire waits for all wires that it reads. -/
def start (sources : List (List Nat)) : Queue where
  done := []
  ready := places List.isEmpty sources
  waiting := sources.map List.length

/-- The wires that read wire `i`, in their order. -/
def readers (sources : List (List Nat)) (i : Nat) : List Nat :=
  places (fun s => s.contains i) sources

/-- Lets wire `i` wait for one wire less, and makes it ready when it waits for none. -/
def release (q : Queue) (i : Nat) : Queue :=
  let waiting := q.waiting.modify i (· - 1)
  { q with
    waiting := waiting
    ready := if waiting.getD i 0 = 0 then q.ready ++ [i] else q.ready }

/-- Does the wire at the front. -/
def step (sources : List (List Nat)) (q : Queue) : Queue :=
  match q.ready with
  | [] => q
  | i :: rest =>
    (readers sources i).foldl release { q with done := q.done ++ [i], ready := rest }

/-- Does up to `n` wires. -/
def run (sources : List (List Nat)) : Nat → Queue → Queue
  | 0, q => q
  | n + 1, q => run sources n (step sources q)

end Queue

/-! ## Schedules -/

namespace Module

/-- Does all wires of a module that ever get ready. -/
def finalQueue (m : Module) : Queue :=
  let sources := m.wires.map m.sources
  Queue.run sources m.wires.length (Queue.start sources)

/-- The module with its wires in the order of evaluation. -/
def schedule (m : Module) : Except ScheduleError Module :=
  match firstRepeated [] m.wireNames, m.firstMissing with
  | some name, _ => .error (.repeatedWire name)
  | none, some (wire, dependency) => .error (.missing wire dependency)
  | none, none =>
    let q := m.finalQueue
    if q.done.length < m.wires.length then
      let stuck := (m.wires.zip q.waiting).filter fun (_, n) => 0 < n
      .error (.cycle (stuck.map fun (w, _) => w.name))
    else
      .ok { m with wires := q.done.filterMap fun i => m.wires[i]? }

end Module

end Netlist

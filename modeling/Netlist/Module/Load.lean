/-
Loading: from source text to a module in the order of evaluation.

Comments are blanked, the text is parsed, one of its modules is put together, and the wires
of that module are brought into order.
-/
import Netlist.Comment
import Netlist.Grammar.Parse
import Netlist.Module.OfTree
import Netlist.Module.Schedule

set_option autoImplicit false

namespace Netlist

/-- Why a text has no module that could be evaluated. -/
inductive LoadError where
  | parse (e : Grammar.ParseError)
  | assemble (e : ModuleError)
  | schedule (e : ScheduleError)

/-- The text that reports the error. -/
def LoadError.message (expected : Grammar.Expectations) : LoadError → String
  | parse e => e.message expected
  | assemble e => e.message
  | schedule e => e.message

namespace Module

/-- The module of a name in a source, or its first module. -/
def load (source : Source) (top : Option String) : ExceptT LoadError Logged Module := do
  let code : Source := ⟨source.origin, Comment.strip source.contents⟩
  let root ← (Grammar.parseFile code).mapError LoadError.parse
  let module ← ExceptT.mk do
    return (← (ofTree root top).run).mapError LoadError.assemble
  module.schedule.mapError LoadError.schedule

end Module

end Netlist

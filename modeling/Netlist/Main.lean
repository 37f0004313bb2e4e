/-
The program: reads the file that the arguments name and prints the answer.
-/
import Netlist.CommandLine

set_option autoImplicit false

namespace Netlist.CommandLine

/-- Why the system did not hand over a file. -/
def reasonOf : IO.Error → String
  | .noFileOrDirectory .. => noSuchFile
  | .permissionDenied .. => "Permission denied (os error 13)"
  | .inappropriateType _ 21 _ => "Is a directory (os error 21)"
  | .inappropriateType .. => "Not a directory (os error 20)"
  | e => toString e

/-- What is in a file, or why it cannot be read. -/
def readFile (file : String) : IO (Except String String) := do
  try
    match String.fromUTF8? (← IO.FS.readBinFile file) with
    | some text => return .ok text
    | none => return .error notText
  catch e => return .error (reasonOf e)

/-- Prints an outcome. -/
def Outcome.print (o : Outcome) : IO UInt32 := do
  (← IO.getStdout).putStr o.output
  o.messages.forM IO.eprintln
  return o.exitCode.toUInt32

/-- No parser table is at hand, so no tokens are listed. -/
def nothingListed : Grammar.Expectations := fun _ _ => []

end Netlist.CommandLine

def main (args : List String) : IO UInt32 := do
  match Netlist.CommandLine.Request.ofArguments args with
  | .error e => e.outcome.print
  | .ok q =>
    let contents ← Netlist.CommandLine.readFile q.file
    (Netlist.CommandLine.answer Netlist.CommandLine.nothingListed q contents).print

/-
The command line: simulate one module of one file and report its values.

The arguments are a file, inputs to set, the name of a module, a radix and the form of the
report. They are read from left to right. The value of an option is looked at when the next
argument begins, and an argument that nobody knows is complained about before that.
-/
import Netlist.Module.Load
import Netlist.Report
import Netlist.Text.Terminal

set_option autoImplicit false

namespace Netlist.CommandLine

/-! ## Bindings -/

/-- An input to set. -/
structure Binding where
  name : String
  /-- The literal names a width of its own. -/
  isSized : Bool
  word : Word
deriving DecidableEq

/-- Reads a binding: a name, an equals sign and a literal. -/
def Binding.read (text : String) : Except String Binding :=
  let cs := text.toList
  match cs.dropWhile (· != '=') with
  | [] => .error s!"Expected NAME=LITERAL but found `{text}`"
  | _ :: literal =>
    let name := Text.trim (String.ofList (cs.takeWhile (· != '=')))
    if name.isEmpty then .error s!"Missing input name in `{text}`"
    else
      match Literal.read (String.ofList literal) with
      | .ok w => .ok ⟨name, literal.contains Literal.mark, w⟩
      | .error e => .error e.message

/-- The word that a binding gives to an input of a module. A literal without a width takes
that of the input if it fits. -/
def Binding.wordFor (m : Module) (b : Binding) : Word :=
  match m.input? b.name with
  | some i => if !b.isSized && b.word.width ≤ i.width then b.word.resize i.width else b.word
  | none => b.word

/-- The environment of a list of bindings, of which later ones replace earlier ones. -/
def bind (m : Module) (bindings : List Binding) : Env :=
  NameMap.ofList (bindings.map fun b => (b.name, b.wordFor m))

/-! ## Arguments -/

/-- What the arguments ask for. -/
structure Request where
  file : String
  bindings : List Binding
  top : Option String
  radix : Radix
  json : Bool
deriving DecidableEq

/-- Why the arguments ask for nothing. -/
inductive UsageError where
  /-- An argument is unknown, misplaced, missing or given twice. -/
  | malformed
  /-- The value of an option is unusable. -/
  | badValue (value option reason : String)
deriving DecidableEq

/-- The options that take a value. -/
inductive ValueOption where
  | set
  | top
  | radix
deriving DecidableEq

/-- The arguments read so far. `pending` is an option whose value has not been looked at,
or not even been seen. -/
structure Progress where
  file : Option String
  bindings : List Binding
  top : Option String
  radix : Option Radix
  json : Bool
  debug : Bool
  pending : Option (ValueOption × Option String)

namespace Progress

/-- Nothing has been read. -/
def start : Progress :=
  ⟨none, [], none, none, false, false, none⟩

/-- Takes the value of an option. -/
def take (p : Progress) (option : ValueOption) (value : String) : Except UsageError Progress :=
  match option with
  | .set =>
    match Binding.read value with
    | .ok b => .ok { p with bindings := p.bindings ++ [b] }
    | .error reason => .error (.badValue value "--set <NAME=LITERAL>" reason)
  | .top => if p.top.isSome then .error .malformed else .ok { p with top := some value }
  | .radix =>
    if p.radix.isSome then .error .malformed
    else
      match Radix.ofName value with
      | .ok r => .ok { p with radix := some r }
      | .error e => .error (.badValue value "--radix <RADIX>" e.message)

/-- Looks at the option that is pending, if there is one. -/
def settle (p : Progress) : Except UsageError Progress :=
  match p.pending with
  | none => .ok p
  | some (_, none) => .error .malformed
  | some (option, some value) => { p with pending := none }.take option value

/-- Takes the flag that asks for JSON. -/
def takeJson (p : Progress) : Except UsageError Progress := do
  let p ← p.settle
  if p.json then throw .malformed
  return { p with json := true }

/-- Takes the flag that asks for more messages. -/
def takeDebug (p : Progress) : Except UsageError Progress := do
  let p ← p.settle
  if p.debug then throw .malformed
  return { p with debug := true }

/-- Takes an option, with its value if that stands in the same argument. -/
def takeOption (p : Progress) (option : ValueOption) (value : Option String) :
    Except UsageError Progress := do
  let p ← p.settle
  match value with
  | some value => p.take option value
  | none => return { p with pending := some (option, none) }

/-- Takes an argument that is not an option: the value that is awaited, or the file. -/
def takeValue (p : Progress) (value : String) : Except UsageError Progress :=
  match p.pending, p.file with
  | some (option, none), _ => .ok { p with pending := some (option, some value) }
  | _, some _ => .error .malformed
  | _, none => do
    let p ← p.settle
    return { p with file := some value }

/-- Takes an argument behind the one that ends the options. -/
def takeFile (p : Progress) (value : String) : Except UsageError Progress :=
  match p.file with
  | some _ => .error .malformed
  | none => do
    let p ← p.settle
    return { p with file := some value }

/-- Takes an argument that begins with two dashes; `name` and `value` are its parts before
and behind the first equals sign. -/
def takeLong (p : Progress) (name : String) (value : Option String) :
    Except UsageError Progress :=
  match name, value with
  | "set", _ => p.takeOption .set value
  | "top", _ => p.takeOption .top value
  | "radix", _ => p.takeOption .radix value
  | "json", none => p.takeJson
  | "debug", none => p.takeDebug
  | _, _ => .error .malformed

/-- Takes an argument that begins with one dash, a row of flags of one letter each. -/
def takeShort (p : Progress) : List Char → Except UsageError Progress
  | [] => .ok p
  | 'd' :: rest => do (← p.takeDebug).takeShort rest
  | _ :: _ => .error .malformed

/-- Takes all arguments. -/
def takeAll (p : Progress) : List String → Except UsageError Progress
  | [] => p.settle
  | arg :: rest =>
    match arg.toList with
    | ['-', '-'] => do (← rest.foldlM takeFile p).settle
    | '-' :: '-' :: cs => do
      let name := String.ofList (cs.takeWhile (· != '='))
      let value :=
        match cs.dropWhile (· != '=') with
        | [] => none
        | _ :: value => some (String.ofList value)
      (← p.takeLong name value).takeAll rest
    | '-' :: c :: cs => do (← p.takeShort (c :: cs)).takeAll rest
    | _ => do (← p.takeValue arg).takeAll rest

end Progress

/-- Reads the arguments. -/
def Request.ofArguments (args : List String) : Except UsageError Request := do
  let p ← Progress.start.takeAll args
  match p.file with
  | none => throw .malformed
  | some file => return ⟨file, p.bindings, p.top, p.radix.getD .decimal, p.json⟩

/-! ## Answers -/

/-- What the program leaves behind: its exit code, what it prints, and lines for whoever
watches it. -/
structure Outcome where
  exitCode : Nat
  output : String
  messages : List String
deriving DecidableEq

/-- A text that stands out on a terminal. -/
def emphasis (s : String) : String :=
  "\x1b[1m" ++ s ++ "\x1b[0m"

/-- A usage error in words, for a terminal. -/
def UsageError.message : UsageError → String
  | malformed =>
    "error: expected FILE [--set NAME=LITERAL]... [--top NAME] [--radix RADIX] [--json]"
  | badValue value option reason =>
    let help := emphasis "--help"
    s!"error: invalid value '{emphasis value}' for '{emphasis option}': {reason}\n\n" ++
      s!"For more information, try '{help}'."

/-- The answer to arguments that ask for nothing. What the message quotes of the arguments
may itself hold control sequences for a terminal, and these go with the emphasis: a sequence
that the arguments leave open takes with it what follows, up to the next emphasis. -/
def UsageError.outcome (e : UsageError) : Outcome :=
  ⟨2, "", [Text.Terminal.plain e.message]⟩

/-- Why a file that is not there cannot be read. -/
def noSuchFile : String :=
  "No such file or directory (os error 2)"

/-- Why a file that does not hold text cannot be read. -/
def notText : String :=
  "stream did not contain valid UTF-8"

/-- The answer when the work on a file fails. -/
def failure (file reason : String) : Outcome :=
  ⟨1, "", [s!"{file}: {reason}"]⟩

/-- The answer to a simulation that succeeds. -/
def success (q : Request) (m : Module) (env : Env) (log : Log) : Outcome :=
  if q.json then ⟨0, (Report.json m env log q.radix).write ++ "\n", []⟩
  else
    let count := log.warnings.length
    ⟨0, Report.text m env q.radix, if count = 0 then [] else [s!"{count} warning(s)"]⟩

/-- The answer to a request, given what is in the file or why it cannot be read. -/
def answer (expected : Grammar.Expectations) (q : Request) (contents : Except String String) :
    Outcome :=
  match contents with
  | .error reason => failure q.file reason
  | .ok text =>
    let loaded := (Module.load (.ofFile q.file text) q.top).run
    match loaded.value with
    | .error e => failure q.file (e.message expected)
    | .ok m =>
      let simulated := (m.simulate (bind m q.bindings)).run
      match simulated.value with
      | .error e => failure q.file e.message
      | .ok env => success q m env (loaded.log ++ simulated.log)

end Netlist.CommandLine

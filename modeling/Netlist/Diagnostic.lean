/-
Diagnostics: what is wrong without stopping the work.

A finding says what was met, and a diagnostic adds how serious it is and where it is. The
work goes on: the offending part is left out or made to fit. `Logged` is the result of work
that may record diagnostics. Their order is the order of the findings, and what is recorded
never depends on what was recorded before.
-/
import Netlist.Expr
import Netlist.Operator
import Netlist.Tree
import Netlist.Word.Text

set_option autoImplicit false

namespace Netlist

/-! ## Findings -/

/-- How serious a finding is. -/
inductive Severity where
  | info
  | warning
deriving DecidableEq

/-- The name of a severity in messages. -/
def Severity.name : Severity → String
  | info => "info"
  | warning => "warning"

/-- What can be met in trees, in expressions and in bindings. -/
inductive Finding where
  /-- A node that does not have the children that its kind needs. -/
  | malformedNode (kind : NodeKind) (children : Nat)
  /-- A node that is no expression. -/
  | unsupportedNode (kind : NodeKind) (text : String)
  /-- A bound that is not a constant, or is below zero. -/
  | unusableBound (text : String)
  /-- A selection of no bits. -/
  | emptyPartSelect (text : String)
  /-- An operator that announces no width. -/
  | unsupportedPartSelect (op : String)
  /-- A range of a declaration that is not constant, or too wide. -/
  | unusableRange (text : String)
  /-- A port that is declared already. -/
  | repeatedPort (name : String)
  /-- A listed port that nothing declares. -/
  | undeclaredPort (name : String)
  /-- A definition in a net declaration that does not have a name and an expression. -/
  | malformedDefinition
  /-- An assignment that does not have a target and an expression. -/
  | malformedAssignment
  /-- A definition of an input. -/
  | assignedInput (name : String)
  /-- An output that is declared once more at another width. -/
  | changedWidth (name : String) (width portWidth : Nat)
  /-- A net that is declared already. -/
  | repeatedNet (name : String)
  /-- A target that is not a name. -/
  | unsupportedTarget (text : String)
  /-- An assignment to a name that nothing declares. -/
  | undeclaredTarget (name : String)
  /-- A definition that is left out because its expression is unusable. -/
  | skippedDefinition (name : String)
  /-- A wire of the name of an input. -/
  | wireNamedAsInput (name : String)
  /-- A wire that is defined already. -/
  | repeatedWire (name : String)
  /-- An output that nothing defines. -/
  | undefinedOutput (name : String)
  /-- A net that nothing defines. -/
  | undefinedNet (name : String)
  /-- A division by zero, or a remainder of one. -/
  | divisionByZero (left : Word) (op : BinaryOperator) (right : Word)
  /-- A fixed range that reaches past its operand. -/
  | sliceOutOfRange (e : Expr) (width : Nat)
  /-- A range from a computed position that reaches past its operand. -/
  | partSelectOutOfRange (e : Expr) (position : Word) (width : Nat)
  /-- A computed position past its operand. -/
  | selectOutOfRange (e : Expr) (position : Word) (width : Nat)
  /-- An input bound to a word of another width. -/
  | resizedInput (name : String) (value : Word) (width : Nat)
  /-- A binding of a name that is no input. -/
  | unknownInput (name : String)
  /-- A wire whose value has another width. -/
  | resizedWire (name : String) (width : Nat) (value : Word)
  /-- Something that the caller puts into words. -/
  | remark (text : String)

/-- The text that reports a finding. -/
def Finding.message : Finding → String
  | malformedNode kind children => s!"Malformed {kind.name} with {children} children"
  | unsupportedNode kind text =>
    if text.isEmpty then s!"Unsupported expression: {kind.name}"
    else s!"Unsupported expression: {kind.name} `{text}`"
  | unusableBound text => s!"Expected a constant non-negative bound: `{text}`"
  | emptyPartSelect text => s!"Part-select width must be positive: `{text}`"
  | unsupportedPartSelect op => s!"Unsupported part-select operator: `{op}`"
  | unusableRange text => s!"Could not compute the range `{text}`; using width 1"
  | repeatedPort name => s!"Port declared more than once: {name}"
  | undeclaredPort name => s!"Port has no direction declaration: {name}"
  | malformedDefinition => "Malformed net declaration assignment"
  | malformedAssignment => "Malformed continuous assignment"
  | assignedInput name => s!"Assignment to input: {name}"
  | changedWidth name width portWidth =>
    s!"Net {name} is declared with width {width} but its output port has width {portWidth}; " ++
      s!"using {width}"
  | repeatedNet name => s!"Net declared more than once: {name}"
  | unsupportedTarget text =>
    s!"Unsupported assignment target `{text}`; only simple names can be assigned"
  | undeclaredTarget name => s!"Assignment to undeclared net: {name}"
  | skippedDefinition name => s!"Skipping assignment to {name}"
  | wireNamedAsInput name => s!"Wire has the same name as an input: {name}"
  | repeatedWire name => s!"Wire is assigned more than once: {name}"
  | undefinedOutput name => s!"Output declared but never assigned: {name}"
  | undefinedNet name => s!"Net declared but never assigned: {name}"
  | divisionByZero left op right => s!"Division by zero: {left} {op.text} {right}"
  | sliceOutOfRange e width => s!"Slice {e} is out of range for a value of width {width}"
  | partSelectOutOfRange e position width =>
    let place :=
      match position.count? with
      | some n => Radix.decimal.numeral n
      | none => toString position
    s!"Slice {e} at {place} is out of range for a value of width {width}"
  | selectOutOfRange e position width =>
    s!"Index {e} at {position} is out of range for a value of width {width}"
  | resizedInput name value width =>
    s!"Input {name} is {value}, but it is declared with width {width}; resizing"
  | unknownInput name => s!"No such input: {name}"
  | resizedWire name width value =>
    s!"Wire {name} is declared with width {width} but its value {value} has width " ++
      s!"{value.width}; resizing"
  | remark text => text

/-! ## Diagnostics -/

/-- A finding, how serious it is, and where it is if that is known. -/
structure Diagnostic where
  severity : Severity
  location : Option Location
  finding : Finding

namespace Diagnostic

/-- The text of the finding. -/
def message (d : Diagnostic) : String :=
  d.finding.message

/-- The diagnostic is a warning. -/
def isWarning (d : Diagnostic) : Bool :=
  d.severity == .warning

instance : ToString Diagnostic where
  toString d :=
    match d.location with
    | some l => s!"{d.severity.name}: {l}: {d.message}"
    | none => s!"{d.severity.name}: {d.message}"

end Diagnostic

/-- Diagnostics in the order in which they were recorded. -/
abbrev Log := List Diagnostic

namespace Log

/-- The warnings among the diagnostics. -/
def warnings (log : Log) : Log :=
  log.filter Diagnostic.isWarning

/-- The characters stand side by side somewhere in a text. -/
def occurs (part : List Char) : List Char → Bool
  | [] => part.isEmpty
  | c :: cs => part.isPrefixOf (c :: cs) || occurs part cs

/-- Some message contains the text. -/
def mentions (log : Log) (text : String) : Bool :=
  log.any fun d => occurs text.toList d.message.toList

end Log

/-! ## Work that records diagnostics -/

/-- A result together with the diagnostics recorded on the way to it. -/
@[ext]
structure Logged (α : Type) where
  value : α
  log : Log

namespace Logged

variable {α β : Type}

instance : Monad Logged where
  pure a := ⟨a, []⟩
  bind x f := ⟨(f x.value).value, x.log ++ (f x.value).log⟩

@[simp] theorem value_pure (a : α) : (pure a : Logged α).value = a := rfl

@[simp] theorem log_pure (a : α) : (pure a : Logged α).log = [] := rfl

@[simp] theorem value_bind (x : Logged α) (f : α → Logged β) :
    (x >>= f).value = (f x.value).value := rfl

@[simp] theorem log_bind (x : Logged α) (f : α → Logged β) :
    (x >>= f).log = x.log ++ (f x.value).log := rfl

instance : LawfulMonad Logged :=
  LawfulMonad.mk' Logged
    (fun _ => Logged.ext rfl (List.append_nil _))
    (fun _ _ => rfl)
    (fun _ _ _ => Logged.ext rfl (List.append_assoc _ _ _))

/-- Records a warning. -/
def warn (location : Option Location) (finding : Finding) : Logged Unit :=
  ⟨(), [⟨.warning, location, finding⟩]⟩

/-- Records something that is worth knowing. -/
def inform (location : Option Location) (finding : Finding) : Logged Unit :=
  ⟨(), [⟨.info, location, finding⟩]⟩

end Logged

end Netlist

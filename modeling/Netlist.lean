import Netlist.CommandLine
import Netlist.Comment
import Netlist.Count
import Netlist.Diagnostic
import Netlist.Expr
import Netlist.Expr.Eval
import Netlist.Expr.OfTree
import Netlist.Grammar.Expression
import Netlist.Grammar.Header
import Netlist.Grammar.Item
import Netlist.Grammar.Parse
import Netlist.Grammar.SourceFile
import Netlist.Json
import Netlist.Literal
import Netlist.Main
import Netlist.Module
import Netlist.Module.Load
import Netlist.Module.OfTree
import Netlist.Module.Schedule
import Netlist.Module.Simulate
import Netlist.NameMap
import Netlist.Operator
import Netlist.Proofs.AddedAssignments
import Netlist.Proofs.Assembly
import Netlist.Proofs.Bindings
import Netlist.Proofs.CarriedInputs
import Netlist.Proofs.CommentSpans
import Netlist.Proofs.Concatenation
import Netlist.Proofs.ConstantIndex
import Netlist.Proofs.Constants
import Netlist.Proofs.Cycles
import Netlist.Proofs.DeclaredWidths
import Netlist.Proofs.Definitions
import Netlist.Proofs.DerivationRuns
import Netlist.Proofs.DescendingSelections
import Netlist.Proofs.Digits
import Netlist.Proofs.Drafts
import Netlist.Proofs.Equations
import Netlist.Proofs.Evaluation
import Netlist.Proofs.ExpressionGrammar
import Netlist.Proofs.Expressions
import Netlist.Proofs.Extents
import Netlist.Proofs.Fidelity
import Netlist.Proofs.FileGrammar
import Netlist.Proofs.Gaps
import Netlist.Proofs.HeaderPorts
import Netlist.Proofs.HeaderStyles
import Netlist.Proofs.Influence
import Netlist.Proofs.Initialisers
import Netlist.Proofs.ItemStarts
import Netlist.Proofs.Iterations
import Netlist.Proofs.JoinedTexts
import Netlist.Proofs.KeptWires
import Netlist.Proofs.Layout
import Netlist.Proofs.Lexing
import Netlist.Proofs.LineColumns
import Netlist.Proofs.ListedPorts
import Netlist.Proofs.LiteralReading
import Netlist.Proofs.LiteralTokens
import Netlist.Proofs.Loading
import Netlist.Proofs.LoweredTrees
import Netlist.Proofs.Lowering
import Netlist.Proofs.Mirrors
import Netlist.Proofs.ModuleParts
import Netlist.Proofs.MovedDefinitions
import Netlist.Proofs.MovedInitialisers
import Netlist.Proofs.NamedWires
import Netlist.Proofs.Names
import Netlist.Proofs.Numerals
import Netlist.Proofs.Operators
import Netlist.Proofs.Outlines
import Netlist.Proofs.Overflow
import Netlist.Proofs.ParseExpressions
import Netlist.Proofs.PhraseRuns
import Netlist.Proofs.Precedence
import Netlist.Proofs.Printable
import Netlist.Proofs.Printing
import Netlist.Proofs.Queue
import Netlist.Proofs.RawEvaluation
import Netlist.Proofs.RawWords
import Netlist.Proofs.ReadExpressions
import Netlist.Proofs.ReadFiles
import Netlist.Proofs.Rearrangement
import Netlist.Proofs.Recovery
import Netlist.Proofs.Refusals
import Netlist.Proofs.RelocatedLoading
import Netlist.Proofs.RelocatedModules
import Netlist.Proofs.RelocatedPhrases
import Netlist.Proofs.RelocatedReaders
import Netlist.Proofs.Relocation
import Netlist.Proofs.Renaming
import Netlist.Proofs.Rendering
import Netlist.Proofs.Replication
import Netlist.Proofs.ReportLines
import Netlist.Proofs.Rescheduling
import Netlist.Proofs.ResultWidths
import Netlist.Proofs.RunDerivations
import Netlist.Proofs.RunPhrases
import Netlist.Proofs.Schedule
import Netlist.Proofs.ScheduleOrder
import Netlist.Proofs.SelectionForms
import Netlist.Proofs.Selections
import Netlist.Proofs.Shapes
import Netlist.Proofs.Signals
import Netlist.Proofs.Simulation
import Netlist.Proofs.Slices
import Netlist.Proofs.Spans
import Netlist.Proofs.SpoiledItems
import Netlist.Proofs.Stability
import Netlist.Proofs.Strands
import Netlist.Proofs.Stretches
import Netlist.Proofs.Stripping
import Netlist.Proofs.Tokens
import Netlist.Proofs.Trimming
import Netlist.Proofs.Unambiguous
import Netlist.Proofs.UnaryOperators
import Netlist.Proofs.ViablePrefixes
import Netlist.Proofs.Warnings
import Netlist.Proofs.WellFormed
import Netlist.Proofs.Whitespace
import Netlist.Radix
import Netlist.Report
import Netlist.Session
import Netlist.Source
import Netlist.Text.Blank
import Netlist.Text.Bytes
import Netlist.Text.Lines
import Netlist.Text.Quoted
import Netlist.Text.Terminal
import Netlist.Text.Unprintable
import Netlist.Token
import Netlist.Tree
import Netlist.Tree.Constant
import Netlist.Word
import Netlist.Word.Concat
import Netlist.Word.Operator
import Netlist.Word.Text

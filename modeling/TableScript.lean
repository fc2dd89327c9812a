import TableScript.Position
import TableScript.Text.Blank
import TableScript.Number.Binary
import TableScript.Number.IntegerText
import TableScript.Number.Nearest
import TableScript.Number.Shortest
import TableScript.Number.FloatText
import TableScript.Number.Numeral
import TableScript.Token.Basic
import TableScript.Token.Lexer
import TableScript.Diagnostic
import TableScript.Tree.Basic
import TableScript.Tree.Level
import TableScript.Tree.Parsed
import TableScript.Tree.Parser
import TableScript.Value.Basic
import TableScript.Value.Compare
import TableScript.Table
import TableScript.Heap
import TableScript.Fault
import TableScript.Operator
import TableScript.Reading
import TableScript.Bindings
import TableScript.Scope
import TableScript.Console
import TableScript.State
import TableScript.Action
import TableScript.Eval
import TableScript.Program
import TableScript.CommandLine
import TableScript.Main
import TableScript.Proofs.Run.Changes
import TableScript.Proofs.Run.Logic
import TableScript.Proofs.Run.Discipline
import TableScript.Proofs.Run.Comparison
import TableScript.Proofs.Run.Plan
import TableScript.Proofs.Frames.Balance
import TableScript.Proofs.Frames.Isolation
import TableScript.Proofs.Frames.CallLimit
import TableScript.Proofs.Syntax.Places
import TableScript.Proofs.Syntax.Reader
import TableScript.Proofs.Syntax.Phrase
import TableScript.Proofs.Syntax.Soundness.Expressions
import TableScript.Proofs.Syntax.Soundness.Programs
import TableScript.Proofs.Syntax.Follow
import TableScript.Proofs.Syntax.Completeness.Expressions
import TableScript.Proofs.Syntax.Completeness.Statements
import TableScript.Proofs.Syntax.Completeness.Programs
import TableScript.Proofs.Syntax.Layout.Expressions
import TableScript.Proofs.Syntax.Layout.Programs
import TableScript.Proofs.Syntax.Precedence
import TableScript.Proofs.Syntax.Grammar
import TableScript.Proofs.Syntax.TrailingComma
import TableScript.Proofs.Syntax.Unparse
import TableScript.Proofs.Syntax.RoundTrip
import TableScript.Proofs.Run.Contract
import TableScript.Proofs.Run.Regular
import TableScript.Proofs.Run.Fuel
import TableScript.Proofs.Control.Definitions
import TableScript.Proofs.Control.Break
import TableScript.Proofs.Lexis.Cut
import TableScript.Proofs.Lexis.Scan
import TableScript.Proofs.Lexis.Lossless
import TableScript.Proofs.Lexis.Render
import TableScript.Proofs.Values.Floats
import TableScript.Proofs.Values.Rounding
import TableScript.Proofs.Values.FloatText
import TableScript.Proofs.Values.Order
import TableScript.Proofs.Tables.Entries
import TableScript.Proofs.Tables.History
import TableScript.Proofs.Frames.Moments
import TableScript.Proofs.Frames.CallDepth
import TableScript.Proofs.Control.Counting
import TableScript.Proofs.Control.Termination
import TableScript.Proofs.Syntax.Rests
import TableScript.Proofs.Run.Places
import TableScript.Proofs.Layout
import TableScript.Proofs.Run.HeapGrowth
import TableScript.Proofs.Run.Standard
import TableScript.Proofs.Syntax.Marks
import TableScript.Proofs.Faults
import TableScript.Proofs.Values.Scalars
import TableScript.Proofs.Run.Stored
import TableScript.Proofs.Run.Values
import TableScript.Proofs.Lists.Proper
import TableScript.Proofs.Lists.Runs
import TableScript.Proofs.Effects
import TableScript.Proofs.Control.Progression
import TableScript.Proofs.Tables.Paths
import TableScript.Proofs.Tables.Constructor
import TableScript.Proofs.Tables.Held
import TableScript.Proofs.Syntax.Rules
import TableScript.Proofs.Syntax.Enough
import TableScript.Proofs.Syntax.Decisions.Readers
import TableScript.Proofs.Syntax.Decisions.Rules
import TableScript.Proofs.Syntax.LoopDepth
import TableScript.Proofs.Syntax.Progress
import TableScript.Proofs.Syntax.Completion.Readers
import TableScript.Proofs.Syntax.Completion.Rules
import TableScript.Proofs.Lexis.Order
import TableScript.Proofs.Syntax.FirstProblem
import TableScript.Proofs.Lexis.Faults
import TableScript.Proofs.Diagnostics
import TableScript.Proofs.Control.Counter
import TableScript.Proofs.Values.Integers
import TableScript.Proofs.Values.Decimals
import TableScript.Proofs.Values.WholeNumbers
import TableScript.Proofs.Values.Nearest
import TableScript.Proofs.Values.ReadBack
import TableScript.Proofs.Values.OperatorFaults
import TableScript.Proofs.Run.Causes
import TableScript.Proofs.NumberLiterals

import MethodLang.Arguments.Basic
import MethodLang.Arguments.Invocation
import MethodLang.Builtin
import MethodLang.Fault
import MethodLang.Flow.Build
import MethodLang.Flow.Drawing
import MethodLang.Flow.Graph
import MethodLang.Grammar.Expr
import MethodLang.Grammar.Node
import MethodLang.Grammar.Parser
import MethodLang.Grammar.Source
import MethodLang.Grammar.Token
import MethodLang.Loader.Build
import MethodLang.Loader.Library
import MethodLang.Machine.Action
import MethodLang.Machine.Expression
import MethodLang.Machine.Frame
import MethodLang.Machine.Instr
import MethodLang.Machine.Library
import MethodLang.Machine.Line
import MethodLang.Machine.Method
import MethodLang.Machine.Operator
import MethodLang.Main
import MethodLang.Operation.Basic
import MethodLang.Operation.Lowering
import MethodLang.Pathname
import MethodLang.Picture
import MethodLang.Position
import MethodLang.Program.Analysis
import MethodLang.Program.Compile
import MethodLang.Program.Entry
import MethodLang.Program.MainMethod
import MethodLang.Program.Report
import MethodLang.Program.TypeCheck
import MethodLang.Sample.Figure
import MethodLang.Sample.Program
import MethodLang.Sample.Tree
import MethodLang.Text.Blank
import MethodLang.Text.Cased
import MethodLang.Text.Cut
import MethodLang.Text.Digit
import MethodLang.Text.Identifier
import MethodLang.Text.Integer
import MethodLang.Text.Lines
import MethodLang.Text.Lower
import MethodLang.Text.Printable
import MethodLang.Text.Quoted
import MethodLang.Text.Word
import MethodLang.Tree.Basic
import MethodLang.Tree.Drawing
import MethodLang.Typing.Checker
import MethodLang.Typing.Declaration
import MethodLang.Typing.Inference
import MethodLang.Typing.Mark
import MethodLang.Typing.Role
import MethodLang.Typing.Session
import MethodLang.Typing.Settling
import MethodLang.Typing.TypeError
import MethodLang.Typing.TypeName
import MethodLang.View
import MethodLang.Proofs.Flow.Branch
import MethodLang.Proofs.Flow.Correspondence
import MethodLang.Proofs.Flow.Execution
import MethodLang.Proofs.Flow.Fragment
import MethodLang.Proofs.Flow.Growth
import MethodLang.Proofs.Flow.Laying
import MethodLang.Proofs.Flow.Pruning
import MethodLang.Proofs.Flow.Recording
import MethodLang.Proofs.Flow.Refusal
import MethodLang.Proofs.Flow.Stopping
import MethodLang.Proofs.Flow.Telling
import MethodLang.Proofs.Flow.Walk
import MethodLang.Proofs.Flow.Wellformed
import MethodLang.Proofs.Grammar.Completeness
import MethodLang.Proofs.Grammar.Grouping
import MethodLang.Proofs.Grammar.Heading
import MethodLang.Proofs.Grammar.Instances
import MethodLang.Proofs.Grammar.Inversion
import MethodLang.Proofs.Grammar.Layout
import MethodLang.Proofs.Grammar.Positions
import MethodLang.Proofs.Grammar.Reading
import MethodLang.Proofs.Grammar.Rereading
import MethodLang.Proofs.Grammar.Rescanning
import MethodLang.Proofs.Grammar.Rules
import MethodLang.Proofs.Grammar.Scanning
import MethodLang.Proofs.Grammar.Soundness
import MethodLang.Proofs.Grammar.Spelling
import MethodLang.Proofs.Grammar.Unmarked
import MethodLang.Proofs.Grammar.Unplaced
import MethodLang.Proofs.ListLemmas
import MethodLang.Proofs.Machine.Conversions
import MethodLang.Proofs.Machine.Depth
import MethodLang.Proofs.Machine.Elements
import MethodLang.Proofs.Machine.Evaluation
import MethodLang.Proofs.Machine.Execution
import MethodLang.Proofs.Machine.Generation
import MethodLang.Proofs.Machine.Labels
import MethodLang.Proofs.Machine.Literals
import MethodLang.Proofs.Machine.Numeral
import MethodLang.Proofs.Machine.Processor
import MethodLang.Proofs.Machine.Reading
import MethodLang.Proofs.Machine.Word
import MethodLang.Proofs.Operation.Domain
import MethodLang.Proofs.Operation.Lowering
import MethodLang.Proofs.Operation.Term
import MethodLang.Proofs.Program.Balance
import MethodLang.Proofs.Program.Calling
import MethodLang.Proofs.Program.Carried
import MethodLang.Proofs.Program.Checked
import MethodLang.Proofs.Program.Closing
import MethodLang.Proofs.Program.Coherence
import MethodLang.Proofs.Program.Conformity
import MethodLang.Proofs.Program.Cutting
import MethodLang.Proofs.Program.Entries
import MethodLang.Proofs.Program.Findings
import MethodLang.Proofs.Program.Framing
import MethodLang.Proofs.Program.Linking
import MethodLang.Proofs.Program.Protocol
import MethodLang.Proofs.Program.Quiet
import MethodLang.Proofs.Program.Reordering
import MethodLang.Proofs.Program.Repetition
import MethodLang.Proofs.Program.Sections
import MethodLang.Proofs.Program.Slots
import MethodLang.Proofs.Program.Tables
import MethodLang.Proofs.Program.Writing
import MethodLang.Proofs.Shape
import MethodLang.Proofs.Tree.Drawing
import MethodLang.Proofs.Tree.Related
import MethodLang.Proofs.Typing.Adapting
import MethodLang.Proofs.Typing.Agreement
import MethodLang.Proofs.Typing.Assigning
import MethodLang.Proofs.Typing.Bare
import MethodLang.Proofs.Typing.Canonical
import MethodLang.Proofs.Typing.Conformance
import MethodLang.Proofs.Typing.Declaring
import MethodLang.Proofs.Typing.Duplicates
import MethodLang.Proofs.Typing.Filling
import MethodLang.Proofs.Typing.Inferring
import MethodLang.Proofs.Typing.Moves
import MethodLang.Proofs.Typing.Landing
import MethodLang.Proofs.Typing.Listing
import MethodLang.Proofs.Typing.Marking
import MethodLang.Proofs.Typing.Outcome
import MethodLang.Proofs.Typing.Proper
import MethodLang.Proofs.Typing.Reading
import MethodLang.Proofs.Typing.Repeating
import MethodLang.Proofs.Typing.Result
import MethodLang.Proofs.Typing.Sessions
import MethodLang.Proofs.Typing.Settled
import MethodLang.Proofs.Typing.Soundness
import MethodLang.Proofs.Typing.Spreading
import MethodLang.Proofs.Typing.Tally
import MethodLang.Proofs.Typing.Twins
import MethodLang.Proofs.Typing.Visiting
import MethodLang.Proofs.Typing.Wording

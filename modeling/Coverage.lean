import Coverage.CommandLine
import Coverage.CommandLine.Arguments
import Coverage.Config
import Coverage.Datum
import Coverage.Datum.Json
import Coverage.Datum.Validation
import Coverage.Exclusion
import Coverage.Ledger
import Coverage.Ledger.Data
import Coverage.Ledger.Registry
import Coverage.Main
import Coverage.Marks
import Coverage.Metadata
import Coverage.Metadata.Data
import Coverage.Number.Binary64
import Coverage.Number.Decimal
import Coverage.OrderedMap
import Coverage.Pass
import Coverage.Pass.Check
import Coverage.Pass.Plan
import Coverage.Pass.Probe
import Coverage.Pass.State
import Coverage.Pass.Visit
import Coverage.Pattern
import Coverage.Program.Data
import Coverage.Program.Eval
import Coverage.Program.Machine
import Coverage.Program.OfTree
import Coverage.Program.Operation
import Coverage.Program.Problem
import Coverage.Program.Syntax
import Coverage.Program.Value
import Coverage.Regex
import Coverage.Regex.Parser
import Coverage.Report
import Coverage.Report.Data
import Coverage.Report.Table
import Coverage.Run
import Coverage.Span
import Coverage.Syntax.Exchange
import Coverage.Syntax.Node
import Coverage.Syntax.NodeClass
import Coverage.Syntax.Predicates
import Coverage.Text.Blank
import Coverage.Text.Digit
import Coverage.Text.Identifier
import Coverage.Text.Lines
import Coverage.Text.Printable
import Coverage.Text.Quoted
import Coverage.Text.Ranges
import Coverage.Text.Width
import Coverage.Text.Word
import Coverage.Text.Wrap
import Coverage.Yaml.Reader
import Coverage.Yaml.Scalar
import Coverage.Yaml.Token
import Coverage.Yaml.Writer
import Coverage.Proofs.Accumulation
import Coverage.Proofs.Pass.Enrolment
import Coverage.Proofs.Pass.Yields
import Coverage.Proofs.Pass.Woven
import Coverage.Proofs.Pass.Progress
import Coverage.Proofs.Pass.Primitive
import Coverage.Proofs.Pass.Walk
import Coverage.Proofs.Erasure
import Coverage.Proofs.Syntax.Places
import Coverage.Proofs.Correspondence.Calls
import Coverage.Proofs.Pass.Accounts
import Coverage.Proofs.Metadata
import Coverage.Proofs.Correspondence.Keys
import Coverage.Proofs.Program.Fragment
import Coverage.Proofs.Program.Traced
import Coverage.Proofs.Program.Reads
import Coverage.Proofs.Weaving.Statements
import Coverage.Proofs.Simulation.Basic
import Coverage.Proofs.Simulation.Machine
import Coverage.Proofs.Simulation.Operation
import Coverage.Proofs.Simulation.Eval
import Coverage.Proofs.Simulation.Exec
import Coverage.Proofs.Simulation.Start
import Coverage.Proofs.Ledger
import Coverage.Proofs.Repeat.Rest
import Coverage.Proofs.Transparency
import Coverage.Proofs.Syntax.Grammar
import Coverage.Proofs.Syntax.Stocked
import Coverage.Proofs.Registration
import Coverage.Proofs.Counting
import Coverage.Proofs.Repeat.Blocks
import Coverage.Proofs.Repeat.Left
import Coverage.Proofs.Repeat
import Coverage.Proofs.Check.Walk
import Coverage.Proofs.Check
import Coverage.Proofs.Check.Complete
import Coverage.Proofs.Report
import Coverage.Proofs.Shape
import Coverage.Proofs.Span
import Coverage.Proofs.Projection.Twin
import Coverage.Proofs.Projection.Alike
import Coverage.Proofs.Projection.Walk
import Coverage.Proofs.Projection
import Coverage.Proofs.Nesting.Nested
import Coverage.Proofs.Nesting.Arms
import Coverage.Proofs.Nesting
import Coverage.Proofs.Ledger.Merge
import Coverage.Proofs.Validity
import Coverage.Proofs.Sharing.Lockstep
import Coverage.Proofs.Sharing.Walk
import Coverage.Proofs.Sharing
import Coverage.Proofs.Datum.Validation
import Coverage.Proofs.Datum.Json
import Coverage.Proofs.Metadata.Index
import Coverage.Proofs.Metadata.Data
import Coverage.Proofs.Metadata.History
import Coverage.Proofs.Metadata.RoundTrip
import Coverage.Proofs.Metadata.Groups
import Coverage.Proofs.Placement
import Coverage.Proofs.Report.Grouping
import Coverage.Proofs.Config.Loading
import Coverage.Proofs.Report.Lines
import Coverage.Proofs.Exclusion
import Coverage.Proofs.Pass.Trail
import Coverage.Proofs.Pass.Starts
import Coverage.Proofs.Keys
import Coverage.Proofs.Anchors
import Coverage.Proofs.SourceOrder
import Coverage.Proofs.Number.Rounding
import Coverage.Proofs.Report.Percentage

import LinOpt.Job.Document
import LinOpt.Job.Request
import LinOpt.Json.Writer
import LinOpt.Proofs.Checked
import LinOpt.Proofs.Double.Arithmetic
import LinOpt.Proofs.Double.Order
import LinOpt.Proofs.Double.Parts
import LinOpt.Proofs.Double.Text
import LinOpt.Proofs.Double.Value
import LinOpt.Proofs.Double.Whole
import LinOpt.Proofs.Double.Width
import LinOpt.Proofs.Except
import LinOpt.Proofs.Job.Request
import LinOpt.Proofs.Job.Response
import LinOpt.Proofs.Job.RoundTrip
import LinOpt.Proofs.Job.Terms
import LinOpt.Proofs.Model.Assignment
import LinOpt.Proofs.Model.Built
import LinOpt.Proofs.Model.Gathering
import LinOpt.Proofs.Model.Keys
import LinOpt.Proofs.Model.LookUp
import LinOpt.Proofs.Model.OrderedMap
import LinOpt.Proofs.Model.Register
import LinOpt.Proofs.Model.RunningSum
import LinOpt.Proofs.Mps.BoundHistory
import LinOpt.Proofs.Mps.BoundRecords
import LinOpt.Proofs.Mps.ColumnBounds
import LinOpt.Proofs.Mps.Columns
import LinOpt.Proofs.Mps.Exact
import LinOpt.Proofs.Mps.Given
import LinOpt.Proofs.Mps.InBounds
import LinOpt.Proofs.Mps.Kept
import LinOpt.Proofs.Mps.Layout
import LinOpt.Proofs.Mps.Leads
import LinOpt.Proofs.Mps.Lines
import LinOpt.Proofs.Mps.Marked
import LinOpt.Proofs.Mps.Moves
import LinOpt.Proofs.Mps.ReadsBack
import LinOpt.Proofs.Mps.Recorded
import LinOpt.Proofs.Mps.Records
import LinOpt.Proofs.Mps.RoundTrip
import LinOpt.Proofs.Mps.RowBounds
import LinOpt.Proofs.Mps.Rows
import LinOpt.Proofs.Mps.Tables
import LinOpt.Proofs.Mps.TwoSided
import LinOpt.Proofs.Mps.Written
import LinOpt.Proofs.Program.Exportable
import LinOpt.Proofs.Program.Flattening
import LinOpt.Proofs.Program.InRange
import LinOpt.Proofs.Program.OfModel
import LinOpt.Proofs.Program.OrderedBounds
import LinOpt.Proofs.Program.RowNames
import LinOpt.Proofs.Program.Writable
import LinOpt.Proofs.Scalar.Commutative
import LinOpt.Proofs.Scalar.Lawful
import LinOpt.Proofs.Scalar.Parity
import LinOpt.Proofs.Search.Accepted
import LinOpt.Proofs.Search.Clock
import LinOpt.Proofs.Search.Completeness
import LinOpt.Proofs.Search.Exploration
import LinOpt.Proofs.Search.Faithful
import LinOpt.Proofs.Search.Guarded
import LinOpt.Proofs.Search.InPlace
import LinOpt.Proofs.Search.Magnitude
import LinOpt.Proofs.Search.NoOverflow
import LinOpt.Proofs.Search.Restored
import LinOpt.Proofs.Search.Tally
import LinOpt.Proofs.Search.TimeLimit
import LinOpt.Proofs.Solver.Delivery
import LinOpt.Proofs.Solver.Exhaustive
import LinOpt.Proofs.Solver.LastReport
import LinOpt.Proofs.Solver.Linear
import LinOpt.Proofs.Solver.Steps
import LinOpt.Scalar.Quantity
import LinOpt.Showcase
import LinOpt.Solver.Receive
import LinOpt.Proofs.Search.Tests
import LinOpt.Proofs.Search.Pruning

import SeriesLang.Alias
import SeriesLang.Cache
import SeriesLang.Config
import SeriesLang.Database.Basic
import SeriesLang.Database.File
import SeriesLang.Database.Formula
import SeriesLang.Database.Group
import SeriesLang.Database.Location
import SeriesLang.Database.Table
import SeriesLang.Decimal.Basic
import SeriesLang.Decimal.Notation
import SeriesLang.Decimal.Numeral
import SeriesLang.Decimal.Shortest
import SeriesLang.Digest
import SeriesLang.Engine.Attempts
import SeriesLang.Engine.Basic
import SeriesLang.Engine.Evaluate
import SeriesLang.Engine.Group
import SeriesLang.Engine.Inspect
import SeriesLang.Engine.Register
import SeriesLang.Engine.Rename
import SeriesLang.Error
import SeriesLang.Expr.Basic
import SeriesLang.Expr.Fold
import SeriesLang.Expr.Parser
import SeriesLang.Expr.Printer
import SeriesLang.Expr.Rename
import SeriesLang.Expr.Token
import SeriesLang.Json.Basic
import SeriesLang.Json.Kept
import SeriesLang.Json.Reader
import SeriesLang.Json.Record
import SeriesLang.Json.Writer
import SeriesLang.Limits
import SeriesLang.Operator.Basic
import SeriesLang.Operator.Body
import SeriesLang.Operator.Builtin
import SeriesLang.Operator.Combinator
import SeriesLang.Operator.Dates
import SeriesLang.Operator.Registry
import SeriesLang.Operator.Scalar
import SeriesLang.Operator.Signature
import SeriesLang.Operator.Source
import SeriesLang.Operator.Transform
import SeriesLang.Path
import SeriesLang.Proofs.Alias
import SeriesLang.Proofs.Cache
import SeriesLang.Proofs.Database.Acyclic
import SeriesLang.Proofs.Database.Catalog
import SeriesLang.Proofs.Database.Change
import SeriesLang.Proofs.Database.Contents
import SeriesLang.Proofs.Database.Edges
import SeriesLang.Proofs.Database.Epoch
import SeriesLang.Proofs.Database.Groups
import SeriesLang.Proofs.Database.Links
import SeriesLang.Proofs.Database.Metadata
import SeriesLang.Proofs.Database.Rows
import SeriesLang.Proofs.Database.Stored
import SeriesLang.Proofs.Database.Writes
import SeriesLang.Proofs.Decimal.Bits
import SeriesLang.Proofs.Decimal.Grammar
import SeriesLang.Proofs.Decimal.Order
import SeriesLang.Proofs.Decimal.Reading
import SeriesLang.Proofs.Decimal.RoundTrip
import SeriesLang.Proofs.Decimal.Rounding
import SeriesLang.Proofs.Decimal.Shortest
import SeriesLang.Proofs.Decimal.Spelling
import SeriesLang.Proofs.Engine.Action
import SeriesLang.Proofs.Engine.Attempts
import SeriesLang.Proofs.Engine.Backups
import SeriesLang.Proofs.Engine.Commands
import SeriesLang.Proofs.Engine.Components
import SeriesLang.Proofs.Engine.Deletion
import SeriesLang.Proofs.Engine.Edges
import SeriesLang.Proofs.Engine.Expansion
import SeriesLang.Proofs.Engine.Failures
import SeriesLang.Proofs.Engine.Groups
import SeriesLang.Proofs.Engine.Links
import SeriesLang.Proofs.Engine.Metadata
import SeriesLang.Proofs.Engine.Moves
import SeriesLang.Proofs.Engine.Nesting
import SeriesLang.Proofs.Engine.Outcome
import SeriesLang.Proofs.Engine.Reentry
import SeriesLang.Proofs.Engine.References
import SeriesLang.Proofs.Engine.Renamed
import SeriesLang.Proofs.Engine.Reread
import SeriesLang.Proofs.Engine.Restored
import SeriesLang.Proofs.Engine.Runs
import SeriesLang.Proofs.Engine.Sharing
import SeriesLang.Proofs.Engine.Stored
import SeriesLang.Proofs.Engine.Traffic
import SeriesLang.Proofs.Engine.Transparency
import SeriesLang.Proofs.Engine.Twins
import SeriesLang.Proofs.Engine.Writing
import SeriesLang.Proofs.Expr.Derivation
import SeriesLang.Proofs.Expr.Expansion
import SeriesLang.Proofs.Expr.Grammar
import SeriesLang.Proofs.Expr.Nesting
import SeriesLang.Proofs.Expr.Readable
import SeriesLang.Proofs.Expr.Reader
import SeriesLang.Proofs.Expr.Rename
import SeriesLang.Proofs.Expr.RoundTrip
import SeriesLang.Proofs.Expr.Scan
import SeriesLang.Proofs.Expr.Words
import SeriesLang.Proofs.Json.Reading
import SeriesLang.Proofs.Json.Text
import SeriesLang.Proofs.Operator.Binding
import SeriesLang.Proofs.Operator.Clip
import SeriesLang.Proofs.Operator.Clock
import SeriesLang.Proofs.Operator.Faults
import SeriesLang.Proofs.Operator.Generated
import SeriesLang.Proofs.Operator.Parallel
import SeriesLang.Proofs.Operator.Placeless
import SeriesLang.Proofs.Operator.Plain
import SeriesLang.Proofs.Operator.Related
import SeriesLang.Proofs.Operator.Typing
import SeriesLang.Proofs.Query.Applications
import SeriesLang.Proofs.Query.Asked
import SeriesLang.Proofs.Query.Bounds
import SeriesLang.Proofs.Query.Closure
import SeriesLang.Proofs.Query.Composed
import SeriesLang.Proofs.Query.Constants
import SeriesLang.Proofs.Query.Coverage
import SeriesLang.Proofs.Query.Dates
import SeriesLang.Proofs.Query.Depth
import SeriesLang.Proofs.Query.Ends
import SeriesLang.Proofs.Query.Evaluation
import SeriesLang.Proofs.Query.Expanded
import SeriesLang.Proofs.Query.Folded
import SeriesLang.Proofs.Query.Hooks
import SeriesLang.Proofs.Query.Indexing
import SeriesLang.Proofs.Query.Inlined
import SeriesLang.Proofs.Query.Latest
import SeriesLang.Proofs.Query.Nesting
import SeriesLang.Proofs.Query.Optimized
import SeriesLang.Proofs.Query.Past
import SeriesLang.Proofs.Query.Pointwise
import SeriesLang.Proofs.Query.Refinement
import SeriesLang.Proofs.Query.Renamed
import SeriesLang.Proofs.Query.Replay
import SeriesLang.Proofs.Query.Revisions
import SeriesLang.Proofs.Query.Run
import SeriesLang.Proofs.Query.Scalars
import SeriesLang.Proofs.Query.Search
import SeriesLang.Proofs.Query.Shape
import SeriesLang.Proofs.Query.Windowed
import SeriesLang.Proofs.Series.Agreement
import SeriesLang.Proofs.Series.Buckets
import SeriesLang.Proofs.Series.Computed
import SeriesLang.Proofs.Series.Edits
import SeriesLang.Proofs.Series.Fill
import SeriesLang.Proofs.Series.Indexing
import SeriesLang.Proofs.Series.Points
import SeriesLang.Proofs.Series.Rows
import SeriesLang.Proofs.Series.Within
import SeriesLang.Proofs.Sorted
import SeriesLang.Proofs.Store.History
import SeriesLang.Proofs.Store.Log
import SeriesLang.Proofs.Store.Staircase
import SeriesLang.Proofs.Success
import SeriesLang.Proofs.Time.Grid
import SeriesLang.Proofs.Time.Index
import SeriesLang.Proofs.Time.Months
import SeriesLang.Proofs.Time.Moves
import SeriesLang.Proofs.Time.Reach
import SeriesLang.Proofs.Time.Shift
import SeriesLang.Query.Basic
import SeriesLang.Query.Cached
import SeriesLang.Query.Dependency
import SeriesLang.Query.Editor
import SeriesLang.Query.Evaluate
import SeriesLang.Query.Inline
import SeriesLang.Query.Staircase
import SeriesLang.Series.Aggregate
import SeriesLang.Series.Basic
import SeriesLang.Series.Combine
import SeriesLang.Series.Fill
import SeriesLang.Series.Stored
import SeriesLang.Sorted
import SeriesLang.Store.Basic
import SeriesLang.Store.History
import SeriesLang.Text.Blank
import SeriesLang.Text.Quoted
import SeriesLang.Text.Split
import SeriesLang.Text.Unprintable
import SeriesLang.Time.Calendar
import SeriesLang.Time.Frequency
import SeriesLang.Time.Index
import SeriesLang.Time.Instant
import SeriesLang.Time.Pattern
import SeriesLang.Time.Span
import SeriesLang.Time.Text
import SeriesLang.Value
import SeriesLang.Window
import SeriesLang.Word
import SeriesLang.Proofs.Query.Editor

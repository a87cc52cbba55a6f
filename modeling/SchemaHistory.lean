import SchemaHistory.CommandLine.Arguments
import SchemaHistory.CommandLine.Files
import SchemaHistory.CommandLine.Invocation
import SchemaHistory.CommandLine.Machine
import SchemaHistory.CommandLine.Run
import SchemaHistory.Compiled
import SchemaHistory.Decimal.Binary64
import SchemaHistory.Decimal.Shortest
import SchemaHistory.Declaration.Basic
import SchemaHistory.Declaration.Document
import SchemaHistory.Declaration.OfText
import SchemaHistory.Declaration.Primitive
import SchemaHistory.Declaration.TypeExpr
import SchemaHistory.Diagnostic
import SchemaHistory.Digest.Sha256
import SchemaHistory.Enumeration.Numbering
import SchemaHistory.Enumeration.Style
import SchemaHistory.History.Basic
import SchemaHistory.History.Snapshot
import SchemaHistory.History.Walk
import SchemaHistory.Inspection
import SchemaHistory.Json.Basic
import SchemaHistory.Json.Equality
import SchemaHistory.Json.Order
import SchemaHistory.Json.Quoted
import SchemaHistory.Json.Reader
import SchemaHistory.Json.Writer
import SchemaHistory.Lifetime.Basic
import SchemaHistory.Lifetime.Siblings
import SchemaHistory.Main
import SchemaHistory.References
import SchemaHistory.References.Checker
import SchemaHistory.Rejection
import SchemaHistory.Settings
import SchemaHistory.Source.Parsed
import SchemaHistory.Source.Position
import SchemaHistory.Source.Token
import SchemaHistory.Table
import SchemaHistory.Text.Basic
import SchemaHistory.Text.Blank
import SchemaHistory.Text.Bytes
import SchemaHistory.Text.Digit
import SchemaHistory.Text.Newlines
import SchemaHistory.Text.Numeral
import SchemaHistory.Text.Printable
import SchemaHistory.Text.Quoted
import SchemaHistory.Upgrade.Change
import SchemaHistory.Upgrade.Diff
import SchemaHistory.Proofs.Results
import SchemaHistory.Proofs.Lifetime.Interval
import SchemaHistory.Proofs.Lifetime.OfHeader
import SchemaHistory.Proofs.History.Placing
import SchemaHistory.Proofs.History.Items
import SchemaHistory.Proofs.History.Layout
import SchemaHistory.Proofs.Lifetime.Overlap
import SchemaHistory.Proofs.Enumeration.Styles
import SchemaHistory.Proofs.History.Acceptance
import SchemaHistory.Proofs.History.Exactness
import SchemaHistory.Proofs.Enumeration.Order
import SchemaHistory.Proofs.Excerpt.Basic
import SchemaHistory.Proofs.Excerpt.Snapshot
import SchemaHistory.Proofs.References.Verdict
import SchemaHistory.Proofs.References.Occurrences
import SchemaHistory.Proofs.Compiled.Acceptance
import SchemaHistory.Proofs.Compiled.Coherence
import SchemaHistory.Proofs.Compiled.WellFormed
import SchemaHistory.Proofs.Compiled.Alone
import SchemaHistory.Proofs.Upgrade.Tables
import SchemaHistory.Proofs.Upgrade.Verdict
import SchemaHistory.Proofs.Upgrade.Lifetimes
import SchemaHistory.Proofs.Growth.Edits
import SchemaHistory.Proofs.Growth.Released
import SchemaHistory.Proofs.Faults.First
import SchemaHistory.Proofs.Grammar.Basic
import SchemaHistory.Proofs.Grammar.Reading
import SchemaHistory.Proofs.Grammar.Expressions
import SchemaHistory.Proofs.Grammar.Headers
import SchemaHistory.Proofs.Grammar.Schemas
import SchemaHistory.Proofs.Text.Pieces
import SchemaHistory.Proofs.Text.Short
import SchemaHistory.Proofs.Source.Cuts
import SchemaHistory.Proofs.Grammar.Printed
import SchemaHistory.Proofs.Grammar.Numerals
import SchemaHistory.Proofs.Json.Written
import SchemaHistory.Proofs.Json.Sorted
import SchemaHistory.Proofs.Json.Numbers
import SchemaHistory.Proofs.Grammar.Spelled
import SchemaHistory.Proofs.Fingerprint.Shape
import SchemaHistory.Proofs.Fingerprint.Identity
import SchemaHistory.Proofs.Declaration.Relocated
import SchemaHistory.Proofs.Declaration.Reloaded
import SchemaHistory.Proofs.Declaration.Loaded
import SchemaHistory.Proofs.Declaration.Numbers
import SchemaHistory.Proofs.Arrangement.Basic
import SchemaHistory.Proofs.Arrangement.Schema
import SchemaHistory.Proofs.Arrangement.Checks
import SchemaHistory.Proofs.Arrangement.Compiled
import SchemaHistory.Proofs.Faults.Relocated
import SchemaHistory.Proofs.Faults.RelocatedFacts
import SchemaHistory.Proofs.Compiled.Relocated
import SchemaHistory.Proofs.Faults.FactOrigins
import SchemaHistory.Proofs.Compiled.Numbers
import SchemaHistory.Proofs.Grammar.Infixes
import SchemaHistory.Proofs.Grammar.Moved
import SchemaHistory.Proofs.Source.Standing
import SchemaHistory.Proofs.Compiled.Lexemes
import SchemaHistory.Proofs.Compiled.Pointed
import SchemaHistory.Proofs.Excerpt.Picked
import SchemaHistory.Proofs.References.Dangling
import SchemaHistory.Proofs.Upgrade.Report
import SchemaHistory.Proofs.Upgrade.Accounts
import SchemaHistory.Proofs.Upgrade.Differences
import SchemaHistory.Proofs.Upgrade.Paths
import SchemaHistory.Proofs.Upgrade.Complete
import SchemaHistory.Proofs.Upgrade.Values
import SchemaHistory.Proofs.Declaration.Memberless
import SchemaHistory.Proofs.CommandLine.Reported
import SchemaHistory.Proofs.Upgrade.Mirrored
import SchemaHistory.Proofs.Upgrade.Chained
import SchemaHistory.Proofs.Lifetime.Admission
import SchemaHistory.Proofs.Grammar.Reread
import SchemaHistory.Proofs.Lifetime.Nesting
import SchemaHistory.Proofs.Enumeration.Increasing
import SchemaHistory.Proofs.Source.Layout
import SchemaHistory.Proofs.Source.Strays
import SchemaHistory.Proofs.Source.Order
import SchemaHistory.Proofs.Source.Extended
import SchemaHistory.Proofs.Grammar.Beginnings
import SchemaHistory.Proofs.Grammar.Overruns
import SchemaHistory.Proofs.Grammar.HeaderPlaces
import SchemaHistory.Proofs.Grammar.Refusals
import SchemaHistory.Proofs.Grammar.FirstFault
import SchemaHistory.Proofs.History.Visited
import SchemaHistory.Proofs.History.Limit
import SchemaHistory.Proofs.History.Owners
import SchemaHistory.Proofs.History.Checked
import SchemaHistory.Proofs.Grammar.Tape
import SchemaHistory.Proofs.Grammar.Followed
import SchemaHistory.Proofs.Grammar.Counterparts
import SchemaHistory.Proofs.Grammar.Progress
import SchemaHistory.Proofs.CommandLine.Written
import SchemaHistory.Proofs.CommandLine.Agreement
import SchemaHistory.Proofs.CommandLine.Numbers
import SchemaHistory.Proofs.Inspection.Rejections
import SchemaHistory.Proofs.Inspection.Checks

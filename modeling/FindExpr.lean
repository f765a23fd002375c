import FindExpr.Main
import FindExpr.Query.Render
import FindExpr.TokenStream
import FindExpr.Proofs.Grammar.Basic
import FindExpr.Proofs.Recognizer.Residual
import FindExpr.Proofs.Grammar.Nesting
import FindExpr.Proofs.Recognizer.Path
import FindExpr.Proofs.Recognizer.Trace
import FindExpr.Proofs.Recognizer.Completion
import FindExpr.Proofs.Recognizer.Faults
import FindExpr.Proofs.Recognizer.Acceptance
import FindExpr.Proofs.Lexer.Items
import FindExpr.Proofs.Recognizer.FirstError
import FindExpr.Proofs.Grammar.Derivation
import FindExpr.Proofs.Grammar.Events
import FindExpr.Proofs.Grammar.Unambiguous
import FindExpr.Proofs.Recognizer.Reading
import FindExpr.Proofs.Recognizer.Clauses
import FindExpr.Proofs.Grammar.Value
import FindExpr.Proofs.Query.Conditions
import FindExpr.Proofs.Query.Capture
import FindExpr.Proofs.Grammar.Inversion
import FindExpr.Proofs.Lexer.Marks
import FindExpr.Proofs.Lexer.Scan
import FindExpr.Proofs.Query.Nesting
import FindExpr.Proofs.Query.Reconstruction
import FindExpr.Proofs.Query.RoundTrip
import FindExpr.Proofs.Lexer.Calls
import FindExpr.Proofs.Lexer.MaximalMunch
import FindExpr.Proofs.Lexer.Tiling
import FindExpr.Proofs.Query.Parentheses
import FindExpr.Proofs.Lexer.Layout
import FindExpr.Proofs.Recognizer.Erasure
import FindExpr.Proofs.Query.Rejection
import FindExpr.Proofs.Query.Layout
import FindExpr.Proofs.Lexer.Order
import FindExpr.Proofs.Recognizer.Handlers
import FindExpr.Proofs.Recognizer.Places
import FindExpr.Proofs.Recognizer.Linearization
import FindExpr.Proofs.Recognizer.Counter
import FindExpr.Proofs.Query.Agreement
import FindExpr.Proofs.Query.AnyOrder
import FindExpr.Proofs.Query.Comparisons
import FindExpr.Proofs.Recognizer.Laziness
import FindExpr.Proofs.TokenStream
import FindExpr.Proofs.Text.Lines
import FindExpr.Proofs.Report
import FindExpr.Proofs.Lexer.Runaway
import FindExpr.Proofs.Lexer.Readable
import FindExpr.Proofs.Lexer.Spans
import FindExpr.Proofs.Lexer.Replacement
import FindExpr.Proofs.Recognizer.Rejections
import FindExpr.Proofs.Recognizer.Groups
import FindExpr.Proofs.Recognizer.Notes
import FindExpr.Proofs.Query.Spans
import FindExpr.Proofs.Query.Report
import FindExpr.Proofs.Query.Suggestions
import FindExpr.Proofs.Report.Checked
import FindExpr.Proofs.Command.Schedule
import FindExpr.Proofs.Command.Listing
import FindExpr.Proofs.Query.Json
import FindExpr.Proofs.Lexer.Bytes
import FindExpr.Proofs.Query.Values
import FindExpr.Proofs.Query.Underline

import Mapsto.Text.Alphabetic
import Mapsto.Text.Blank
import Mapsto.Text.Lines
import Mapsto.Text.Numeric
import Mapsto.Text.Ranges
import Mapsto.Span
import Mapsto.Token
import Mapsto.Token.Lexer
import Mapsto.Decimal.Layout
import Mapsto.Decimal.Numeral
import Mapsto.Decimal.Shortest
import Mapsto.Expr
import Mapsto.Expr.Parser
import Mapsto.Expr.Printer
import Mapsto.Builtin
import Mapsto.Builtin.Apply
import Mapsto.Value
import Mapsto.Value.Printer
import Mapsto.Sink
import Mapsto.Diagnostic
import Mapsto.Eval
import Mapsto.Disk
import Mapsto.Disk.Path
import Mapsto.Disk.Tree
import Mapsto.Directive
import Mapsto.Expansion
import Mapsto.Session
import Mapsto.Report
import Mapsto.CommandLine
import Mapsto.Batch
import Mapsto.Interactive
import Mapsto.Launch
import Mapsto.Main
import Mapsto.Proofs.Grammar
import Mapsto.Proofs.Grammar.Unambiguous
import Mapsto.Proofs.Grammar.Reading
import Mapsto.Proofs.Parser.Exact
import Mapsto.Proofs.Value.Alike
import Mapsto.Proofs.Eval.Coincidence
import Mapsto.Proofs.Lexer.Lines
import Mapsto.Proofs.Expansion.Plain
import Mapsto.Proofs.Grammar.Lines
import Mapsto.Proofs.Session.Join
import Mapsto.Proofs.Eval.Hereditary
import Mapsto.Proofs.Eval.Metered
import Mapsto.Proofs.Session.Bounded
import Mapsto.Proofs.Eval.Monotone
import Mapsto.Proofs.Lexer.Exact
import Mapsto.Proofs.Expansion.DepthFirst
import Mapsto.Proofs.Lexer.Spelling
import Mapsto.Proofs.Decimal.Integer
import Mapsto.Proofs.Grammar.Printed
import Mapsto.Proofs.Grammar.RoundTrip
import Mapsto.Proofs.Eval.Growth
import Mapsto.Proofs.Session.Growth
import Mapsto.Proofs.Text.Lines
import Mapsto.Proofs.Expansion.Loop
import Mapsto.Proofs.Expansion.Once
import Mapsto.Proofs.Session.Failures
import Mapsto.Proofs.Text.Bytes
import Mapsto.Proofs.Eval.Additions
import Mapsto.Proofs.Session.Lines
import Mapsto.Proofs.Launch.Piped
import Mapsto.Proofs.Eval.Commute
import Mapsto.Proofs.Builtin.Failure
import Mapsto.Proofs.Eval.Account
import Mapsto.Proofs.Eval.Saturated
import Mapsto.Proofs.Eval.Limited
import Mapsto.Proofs.Parser.Counted
import Mapsto.Proofs.Parser.Limits
import Mapsto.Proofs.Expansion.Idempotent
import Mapsto.Proofs.Parser.Prefix
import Mapsto.Proofs.Parser.Indexed
import Mapsto.Proofs.Parser.Resume
import Mapsto.Proofs.Parser.Located
import Mapsto.Proofs.Eval.Exact
import Mapsto.Proofs.Eval.Curried
import Mapsto.Proofs.CommandLine.Items
import Mapsto.Proofs.Directive.Grammar
import Mapsto.Proofs.Lexer.Stepwise
import Mapsto.Proofs.Report.OneLine
import Mapsto.Proofs.Disk.Components
import Mapsto.Proofs.Disk.Leads
import Mapsto.Proofs.Disk.WellFormed
import Mapsto.Proofs.Expansion.Target
import Mapsto.Proofs.Decimal.Shortest
import Mapsto.Proofs.Decimal.ReadBack

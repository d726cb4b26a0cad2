import Reckon.CommandLine
import Reckon.Dialogue
import Reckon.Error
import Reckon.Eval
import Reckon.Expr.Basic
import Reckon.Expr.Serial
import Reckon.Main
import Reckon.Number.Decimal
import Reckon.Number.Shortest
import Reckon.Parse.Cursor
import Reckon.Parse.Grammar
import Reckon.Proofs.Alike
import Reckon.Proofs.Eval.Alike
import Reckon.Proofs.Eval.Counter
import Reckon.Proofs.Eval.Flat
import Reckon.Proofs.Eval.Footprint
import Reckon.Proofs.Eval.Lines
import Reckon.Proofs.Eval.Metered
import Reckon.Proofs.Eval.Repeat
import Reckon.Proofs.Eval.Unmentioned
import Reckon.Proofs.Lines
import Reckon.Proofs.Parse.Acceptance
import Reckon.Proofs.Parse.Append
import Reckon.Proofs.Parse.Bound
import Reckon.Proofs.Parse.Derivation
import Reckon.Proofs.Parse.Earliest
import Reckon.Proofs.Parse.Failing
import Reckon.Proofs.Parse.FailingRun
import Reckon.Proofs.Parse.Height
import Reckon.Proofs.Parse.Levels
import Reckon.Proofs.Parse.Limit
import Reckon.Proofs.Parse.Lines
import Reckon.Proofs.Parse.Misfit
import Reckon.Proofs.Parse.Precedence
import Reckon.Proofs.Parse.Printing
import Reckon.Proofs.Parse.Reach
import Reckon.Proofs.Parse.Reading
import Reckon.Proofs.Parse.Run
import Reckon.Proofs.Parse.Threshold
import Reckon.Proofs.Scope
import Reckon.Proofs.Scope.History
import Reckon.Proofs.Session.Compose
import Reckon.Proofs.Session.Dialogue
import Reckon.Proofs.Session.Guards
import Reckon.Proofs.Session.Layout
import Reckon.Proofs.Session.Metered
import Reckon.Proofs.Session.Numbering
import Reckon.Proofs.Session.Provenance
import Reckon.Proofs.Simulation
import Reckon.Proofs.Text.Input
import Reckon.Proofs.Token.Foreign
import Reckon.Proofs.Token.Partition
import Reckon.Proofs.Token.Spelling
import Reckon.Proofs.Token.Split
import Reckon.Proofs.Token.Writing
import Reckon.Scope
import Reckon.Session
import Reckon.Settings
import Reckon.Text.Blank
import Reckon.Token.Basic
import Reckon.Token.Scan
import Reckon.Value

import Reckoner.Environment.Forest
import Reckoner.Main
import Reckoner.Proofs.Session
import Reckoner.Tree.Walk
import Reckoner.Proofs.Evaluation.Simulation
import Reckoner.Proofs.Evaluation.Slot
import Reckoner.Proofs.Evaluation.Budget
import Reckoner.Proofs.Evaluation.Verbosity
import Reckoner.Proofs.Token.Lexeme
import Reckoner.Proofs.Token.Segmentation
import Reckoner.Proofs.Tree.Codec
import Reckoner.Proofs.Console.Stored
import Reckoner.Proofs.Json.RoundTrip
import Reckoner.Proofs.Tree.Legible
import Reckoner.Proofs.Evaluation.Footprint
import Reckoner.Proofs.Evaluation.Lookup
import Reckoner.Proofs.Evaluation.Blame
import Reckoner.Proofs.Evaluation.Layout
import Reckoner.Proofs.Grammar.Extent
import Reckoner.Proofs.Console.Line
import Reckoner.Proofs.Number.Saturation
import Reckoner.Proofs.Tree.Constituents
import Reckoner.Proofs.Grammar.Written
import Reckoner.Proofs.Grammar.Awaited
import Reckoner.Proofs.Evaluation.Counted
import Reckoner.Proofs.Token.Refused
import Reckoner.Proofs.Tree.Normal
import Reckoner.Proofs.Binary64.Power
import Reckoner.Proofs.Number.ZeroDivision
import Reckoner.Proofs.Binary64.Bracket
import Reckoner.Proofs.Binary64.Integral
import Reckoner.Proofs.Number.Power
import Reckoner.Proofs.Token.Spaced
import Reckoner.Proofs.Tree.Malformed
import Reckoner.Proofs.Evaluation.Nested
import Reckoner.Proofs.Grammar.Follow
import Reckoner.Proofs.Grammar.ElseIf
import Reckoner.Proofs.Evaluation.Journal
import Reckoner.Proofs.Evaluation.InFile
import Reckoner.Proofs.Evaluation.Printed
import Reckoner.Proofs.Text.Lines
import Reckoner.Proofs.Diagnostic
import Reckoner.Proofs.Environment.History
import Reckoner.Proofs.Console.Typed

import MiniLisp.Expr.Distinct
import MiniLisp.Main
import MiniLisp.Proofs.Evaluation.Calls
import MiniLisp.Proofs.Evaluation.Completed
import MiniLisp.Proofs.Evaluation.Course
import MiniLisp.Proofs.Evaluation.Depth
import MiniLisp.Proofs.Evaluation.Discipline
import MiniLisp.Proofs.Evaluation.Frames
import MiniLisp.Proofs.Evaluation.Passage
import MiniLisp.Proofs.Evaluation.Protection
import MiniLisp.Proofs.Evaluation.Values
import MiniLisp.Proofs.Evaluation.Visibility
import MiniLisp.Proofs.Number.Nearest
import MiniLisp.Proofs.Number.Closest
import MiniLisp.Proofs.Number.Numeral
import MiniLisp.Proofs.Number.Shortest
import MiniLisp.Proofs.Number.Fewest
import MiniLisp.Proofs.Number.Notation
import MiniLisp.Proofs.Number.Canonical
import MiniLisp.Proofs.Program.Failures
import MiniLisp.Proofs.Program.Nesting
import MiniLisp.Proofs.Program.Pieces
import MiniLisp.Proofs.Program.Reentry
import MiniLisp.Proofs.Program.Transcript
import MiniLisp.Proofs.Reader.Tokens
import MiniLisp.Proofs.Reader.Printed
import MiniLisp.Proofs.Reader.Groups
import MiniLisp.Proofs.Reader.Unclosed
import MiniLisp.Proofs.Reader.Reading
import MiniLisp.Proofs.Reader.RoundTrip
import MiniLisp.Proofs.Reader.Pieces
import MiniLisp.Proofs.Reader.Written
import MiniLisp.Proofs.Reader.Refusal
import MiniLisp.Proofs.Reader.Grammar
import MiniLisp.Proofs.Disk.Place
import MiniLisp.Proofs.Session.History
import MiniLisp.Proofs.Session.Shared
import MiniLisp.Proofs.Session.TopLevel
import MiniLisp.Proofs.Session.Startup
import MiniLisp.Proofs.Session.Conversation
import MiniLisp.Proofs.Reader.OnePass
import MiniLisp.Proofs.Scope.Access
import MiniLisp.Proofs.Evaluation.Correspondence
import MiniLisp.Proofs.Evaluation.Effects
import MiniLisp.Proofs.Evaluation.Simultaneous
import MiniLisp.Proofs.Program.Limit
import MiniLisp.Proofs.Evaluation.InProgress
import MiniLisp.Proofs.Evaluation.Notes
import MiniLisp.Proofs.Reader.Respacing
import MiniLisp.Proofs.Reader.Fixpoint
import MiniLisp.Proofs.Evaluation.Sum
import MiniLisp.Proofs.Expr.Equality
import MiniLisp.Proofs.Expr.Distinct
import MiniLisp.Proofs.Expr.Debug
import MiniLisp.Proofs.Session.Completion

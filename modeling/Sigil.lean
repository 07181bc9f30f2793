import Sigil.CommandLine
import Sigil.CommandRun
import Sigil.Console
import Sigil.Diagnostic
import Sigil.Document
import Sigil.Editor
import Sigil.Evaluation
import Sigil.Host
import Sigil.Host.Printing
import Sigil.Host.Shell
import Sigil.Host.Standard
import Sigil.Json
import Sigil.Json.Reader
import Sigil.Main
import Sigil.Names
import Sigil.Node
import Sigil.Node.Parser
import Sigil.Node.Printer
import Sigil.Node.Stream
import Sigil.Number
import Sigil.Number.Binary
import Sigil.Number.Decimal
import Sigil.Operator
import Sigil.Path
import Sigil.Proofs.Evaluation.Kept
import Sigil.Proofs.Evaluation.Local
import Sigil.Proofs.Evaluation.Relabelled
import Sigil.Proofs.Evaluation.Rules
import Sigil.Proofs.Evaluation.Typed
import Sigil.Proofs.Evaluation.Untyped
import Sigil.Proofs.Evaluation.Visible
import Sigil.Proofs.Node.Accepted
import Sigil.Proofs.Node.Chunks
import Sigil.Proofs.Node.Entries
import Sigil.Proofs.Node.Erased
import Sigil.Proofs.Node.Giving
import Sigil.Proofs.Node.Grammar
import Sigil.Proofs.Node.Joined
import Sigil.Proofs.Node.Legible
import Sigil.Proofs.Node.Mirrored
import Sigil.Proofs.Node.Moved
import Sigil.Proofs.Node.Operations
import Sigil.Proofs.Node.Primary
import Sigil.Proofs.Node.Reading
import Sigil.Proofs.Node.Relabelled
import Sigil.Proofs.Node.Reread
import Sigil.Proofs.Node.Returns
import Sigil.Proofs.Node.RoundTrip
import Sigil.Proofs.Node.Spelled
import Sigil.Proofs.Node.Stages
import Sigil.Proofs.Node.Steady
import Sigil.Proofs.Node.Twin
import Sigil.Proofs.Node.Visible
import Sigil.Proofs.Number.Sign
import Sigil.Proofs.Number.Text
import Sigil.Proofs.Session.Answers
import Sigil.Proofs.Session.Batch
import Sigil.Proofs.Session.Moments
import Sigil.Proofs.Session.Unplaced
import Sigil.Proofs.Store.Frames
import Sigil.Proofs.Store.Relabelled
import Sigil.Proofs.Store.Shared
import Sigil.Proofs.Store.Typed
import Sigil.Proofs.Token.Continued
import Sigil.Proofs.Token.Embedded
import Sigil.Proofs.Token.Enclosures
import Sigil.Proofs.Token.Lexed
import Sigil.Proofs.Token.Mark
import Sigil.Proofs.Token.Moved
import Sigil.Proofs.Token.Proper
import Sigil.Proofs.Token.Steady
import Sigil.Proofs.Typing.Agreement
import Sigil.Proofs.Typing.Inferred
import Sigil.Proofs.Typing.Relabelled
import Sigil.Proofs.Typing.Returns
import Sigil.Proofs.Typing.Visible
import Sigil.Proofs.Value.Typed
import Sigil.Repl
import Sigil.Report
import Sigil.Service
import Sigil.Session
import Sigil.Settings
import Sigil.Span
import Sigil.Store
import Sigil.Text.Blank
import Sigil.Text.Digit
import Sigil.Text.Lines
import Sigil.Text.Printable
import Sigil.Text.Quoted
import Sigil.Text.UpperCase
import Sigil.Text.Utf8
import Sigil.Token
import Sigil.Token.Lexer
import Sigil.Transcript
import Sigil.Ty
import Sigil.Typing
import Sigil.Typing.Scope
import Sigil.Value
import Sigil.Proofs.Session.Documents
import Sigil.Proofs.Token.Embedded
import Sigil.Proofs.Node.Enclosed
import Sigil.Proofs.Node.Inside
import Sigil.Proofs.Node.Tracked
import Sigil.Proofs.Token.Enclosed
import Sigil.Proofs.Token.Scanned
import Sigil.Proofs.Node.Alone
import Sigil.Proofs.Node.Quoted
import Sigil.Proofs.Node.Abreast
import Sigil.Proofs.Node.OpenEnded
import Sigil.Proofs.Node.OneByOne
import Sigil.Proofs.Token.Completable
import Sigil.Proofs.Node.Resumed
import Sigil.Proofs.Node.Viable
import Sigil.Proofs.Node.Finishing
import Sigil.Proofs.Node.FinishingExpressions
import Sigil.Proofs.Node.Finished
import Sigil.Proofs.Node.Events
import Sigil.Proofs.Evaluation.Contract
import Sigil.Proofs.Session.Kept
import Sigil.Proofs.Session.FailStop
import Sigil.Proofs.Typing.Runs
import Sigil.Proofs.Typing.Events
import Sigil.Proofs.Session.Known
import Sigil.Proofs.Session.Traces
import Sigil.Proofs.Token.Placed
import Sigil.Proofs.Node.Spanned
import Sigil.Proofs.Node.Placed
import Sigil.Proofs.Session.Shown
import Sigil.Proofs.Session.Placed
import Sigil.Proofs.Session.Accounted
import Sigil.Proofs.Session.Groups
import Sigil.Proofs.Token.Through
import Sigil.Proofs.Node.Followed
import Sigil.Proofs.Node.FollowedExpressions
import Sigil.Proofs.Node.Infix
import Sigil.Proofs.Node.Precedence
import Sigil.Proofs.Node.Whole
import Sigil.Proofs.Node.Taken
import Sigil.Proofs.Node.Transparent
import Sigil.Proofs.Node.Operands
import Sigil.Proofs.Token.Pieces
import Sigil.Proofs.Typing.Complete
import Sigil.Proofs.Token.Tiled
import Sigil.Proofs.Token.Local
import Sigil.Proofs.Token.Respaced
import Sigil.Proofs.Node.Kindred
import Sigil.Proofs.Node.Echoed
import Sigil.Proofs.Node.Respaced
import Sigil.Proofs.Token.Laid
import Sigil.Proofs.Token.Excerpt
import Sigil.Proofs.Node.Nested
import Sigil.Proofs.Node.Covered
import Sigil.Proofs.Node.CoveredExpressions
import Sigil.Proofs.Node.Excerpt
import Sigil.Proofs.Number.Order
import Sigil.Proofs.Value.Order
import Sigil.Proofs.Evaluation.Operators
import Sigil.Proofs.Service.Chunks
import Sigil.Proofs.Node.Meanings
import Sigil.Proofs.Typing.Histories
import Sigil.Proofs.Typing.Unused
import Sigil.Proofs.Ty.Order
import Sigil.Proofs.Ty.Joined
import Sigil.Proofs.Typing.Joined
import Sigil.Proofs.Typing.Told
import Sigil.Proofs.Node.Forward
import Sigil.Proofs.Editor.Lines
import Sigil.Proofs.Editor.Words
import Sigil.Proofs.Editor.Ranges

import MarkupFormat.Diagnostic
import MarkupFormat.Expression.Command
import MarkupFormat.Expression.Normal
import MarkupFormat.Format.Trace
import MarkupFormat.Log.Logger
import MarkupFormat.Proofs.Answers
import MarkupFormat.Proofs.Arguments
import MarkupFormat.Proofs.BracedLiterals
import MarkupFormat.Proofs.Caret
import MarkupFormat.Proofs.CommentText
import MarkupFormat.Proofs.Concatenation
import MarkupFormat.Proofs.Confluence
import MarkupFormat.Proofs.Coverage
import MarkupFormat.Proofs.Cutting
import MarkupFormat.Proofs.Delivery
import MarkupFormat.Proofs.FilterText
import MarkupFormat.Proofs.Indentation
import MarkupFormat.Proofs.JsonLines
import MarkupFormat.Proofs.LaidLiterals
import MarkupFormat.Proofs.LevelCheck
import MarkupFormat.Proofs.LineDiscipline
import MarkupFormat.Proofs.LineEnds
import MarkupFormat.Proofs.LiteralGrammar
import MarkupFormat.Proofs.LogFiles
import MarkupFormat.Proofs.Nesting
import MarkupFormat.Proofs.Preservation
import MarkupFormat.Proofs.Refusals
import MarkupFormat.Proofs.Respacing
import MarkupFormat.Proofs.SealedBodies
import MarkupFormat.Proofs.Stability
import MarkupFormat.Proofs.TagReading
import MarkupFormat.Proofs.TagWidth
import MarkupFormat.Proofs.Tokens
import MarkupFormat.Proofs.Trimming
import MarkupFormat.Proofs.Unread
import MarkupFormat.Proofs.WellFormed
import MarkupFormat.Raw.OfWritten
import MarkupFormat.Version

import TaskMarkup.Command
import TaskMarkup.Expect
import TaskMarkup.Main
import TaskMarkup.Proofs.Document.Coverage
import TaskMarkup.Proofs.Document.Divided
import TaskMarkup.Proofs.Document.Escaped
import TaskMarkup.Proofs.Document.Formed
import TaskMarkup.Proofs.Document.Grid
import TaskMarkup.Proofs.Document.Joined
import TaskMarkup.Proofs.Document.Markup
import TaskMarkup.Proofs.Document.Nested
import TaskMarkup.Proofs.Document.Outline
import TaskMarkup.Proofs.Document.Overlay
import TaskMarkup.Proofs.Document.Paragraphs
import TaskMarkup.Proofs.Document.Prose
import TaskMarkup.Proofs.Document.Raw
import TaskMarkup.Proofs.Document.Sequential
import TaskMarkup.Proofs.Document.Settings
import TaskMarkup.Proofs.Filter.Distinct
import TaskMarkup.Proofs.Filter.Leftmost
import TaskMarkup.Proofs.Filter.Nesting
import TaskMarkup.Proofs.Filter.Prefix
import TaskMarkup.Proofs.Filter.RoundTrip
import TaskMarkup.Proofs.Filter.Slices
import TaskMarkup.Proofs.Filter.Stalled
import TaskMarkup.Proofs.Lexer.Tape
import TaskMarkup.Proofs.Node.Locate
import TaskMarkup.Proofs.Node.Outline
import TaskMarkup.Proofs.Token.Scanning
import TaskMarkup.Proofs.Token.Slices

import Edict.Cursor
import Edict.Json.Read
import Edict.Json.Write
import Edict.Session
import Edict.Proofs.Grammar.Acceptance
import Edict.Proofs.Grammar.Layout
import Edict.Proofs.Grammar.Progress
import Edict.Proofs.Grammar.Rejection
import Edict.Proofs.Grammar.StatementPrinting
import Edict.Proofs.Run.Agreement
import Edict.Proofs.Run.Counting
import Edict.Proofs.Run.Frame
import Edict.Proofs.Run.Writes
import Edict.Proofs.Run.Splitting
import Edict.Proofs.Run.Binding
import Edict.Proofs.Run.Commuting
import Edict.Proofs.Number.Text
import Edict.Proofs.Token.Spelling
import Edict.Proofs.Grammar.Names
import Edict.Proofs.Grammar.Display
import Edict.Proofs.Grammar.Redisplay
import Edict.Proofs.Value.Slot
import Edict.Proofs.Value.Lens
import Edict.Proofs.Run.Lens
import Edict.Proofs.Run.Compound
import Edict.Proofs.Grammar.Condition
import Edict.Proofs.Run.Concatenation
import Edict.Proofs.Run.Growth
import Edict.Proofs.Value.Appending
import Edict.Proofs.Run.Appending
import Edict.Proofs.Number.Whole
import Edict.Proofs.Value.KeyOrder
import Edict.Proofs.Value.Ordered
import Edict.Proofs.Run.Ordered
import Edict.Proofs.Run.Loops
import Edict.Proofs.Token.Places
import Edict.Proofs.Grammar.Arithmetic
import Edict.Proofs.Grammar.Subtraction
import Edict.Proofs.Grammar.Bodies
import Edict.Proofs.Grammar.Nesting
import Edict.Proofs.Grammar.Gaps
import Edict.Proofs.Grammar.LineBreaks
import Edict.Proofs.Token.Restarting
import Edict.Proofs.Number.Order
import Edict.Proofs.Value.Extreme
import Edict.Proofs.Value.Alike
import Edict.Proofs.Run.Interchange
import Edict.Proofs.Number.Decimal
import Edict.Proofs.Number.Shortest
import Edict.Proofs.Grammar.Forms
import Edict.Proofs.Grammar.Unambiguous
import Edict.Proofs.Grammar.Moves
import Edict.Proofs.Grammar.Enclosing
import Edict.Proofs.Run.Parentheses
import Edict.Proofs.Number.Difference
import Edict.Proofs.Number.Fraction
import Edict.Proofs.Value.Position

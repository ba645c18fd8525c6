import Kettle.Main
import Kettle.Session.Highlight
import Kettle.Proofs.Tree.Delivered
import Kettle.Proofs.Eval.Signal
import Kettle.Proofs.Token.Append
import Kettle.Proofs.Tree.Relocate
import Kettle.Proofs.Tree.Append
import Kettle.Proofs.Eval.Relocate
import Kettle.Proofs.Program.Join
import Kettle.Proofs.Token.Layout
import Kettle.Proofs.Eval.Noninterference
import Kettle.Proofs.Token.Position
import Kettle.Proofs.Node.Render
import Kettle.Proofs.Tree.Readable
import Kettle.Proofs.Tree.Spelling
import Kettle.Proofs.Tree.Roundtrip
import Kettle.Proofs.Eval.Depth
import Kettle.Proofs.Code.Checked
import Kettle.Proofs.Decimal.Finite
import Kettle.Proofs.Eval.Values
import Kettle.Proofs.Tree.Operands
import Kettle.Proofs.Tree.Recast
import Kettle.Proofs.Tree.Joined
import Kettle.Proofs.Tree.Layout
import Kettle.Proofs.Program.Layout
import Kettle.Proofs.Code.Faults
import Kettle.Proofs.Eval.Pieces
import Kettle.Proofs.Program.Rejection
import Kettle.Proofs.Session.Survival
import Kettle.Proofs.Literal.Spelling
import Kettle.Proofs.Value.Readback
import Kettle.Proofs.Eval.Reserved
import Kettle.Proofs.Program.Blame
import Kettle.Proofs.Token.Readback
import Kettle.Proofs.Token.Separator
import Kettle.Proofs.Stage.Line
import Kettle.Proofs.Tree.Schedule
import Kettle.Proofs.Value.Integer
import Kettle.Proofs.Eval.Wrapping
import Kettle.Proofs.Eval.Context
import Kettle.Proofs.Token.Fragment
import Kettle.Proofs.Tree.Compound
import Kettle.Proofs.Session.Brackets
import Kettle.Proofs.Session.Cleaning
import Kettle.Proofs.Session.Highlight
import Kettle.Proofs.Statement.Pass
import Kettle.Proofs.Token.Lines
import Kettle.Proofs.Session.Command
import Kettle.Proofs.Tree.Interrupted
import Kettle.Proofs.Tree.Sealed
import Kettle.Proofs.Eval.Scopes

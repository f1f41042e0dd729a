import ReversePolish.Calculator.Session
import ReversePolish.Main
import ReversePolish.Proofs.Postfix
import ReversePolish.Proofs.Depth
import ReversePolish.Proofs.Batch
import ReversePolish.Proofs.Atomicity
import ReversePolish.Proofs.FailureMark
import ReversePolish.Proofs.Session
import ReversePolish.Proofs.Cursor
import ReversePolish.Proofs.Keys
import ReversePolish.Proofs.CommandLine
import ReversePolish.Proofs.Ending
import ReversePolish.Proofs.Product
import ReversePolish.Proofs.Accuracy
import ReversePolish.Proofs.Indices
import ReversePolish.Proofs.Fibonacci
import ReversePolish.Proofs.Acceptance
import ReversePolish.Proofs.RunningProduct
import ReversePolish.Proofs.Queries
import ReversePolish.Proofs.Filtering
import ReversePolish.Proofs.Concatenation
import ReversePolish.Proofs.Frame
import ReversePolish.Proofs.Value
import ReversePolish.Proofs.Nearest
import ReversePolish.Proofs.Residues
import ReversePolish.Proofs.Scientific
import ReversePolish.Proofs.Grammar
import ReversePolish.Proofs.Remainder
import ReversePolish.Proofs.RightAngle
import ReversePolish.Proofs.Coefficients
import ReversePolish.Proofs.Overflow
import ReversePolish.Proofs.Texts
import ReversePolish.Proofs.Bulk
import ReversePolish.Proofs.Recurrence
import ReversePolish.Proofs.StackText
import ReversePolish.Proofs.TapeLines
import ReversePolish.Proofs.Script

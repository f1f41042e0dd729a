/-
  Calculators: an operand stack and a tape.

  * `Outcome` is what an action of a calculator leads to: a value or a
    failure, the calculator afterwards, and what was logged on the way;
  * `Outcome.andThen` continues after a success;
  * `Calculator.push`, `Calculator.pop` and `Calculator.applyWord` work on the
    stack of a calculator.
-/
import ReversePolish.Tape
import ReversePolish.Log.Record
import ReversePolish.Operation.Apply

namespace ReversePolish

/-- A calculator. -/
structure Calculator where
  stack : Stack := {}
  tape : Tape := {}
  deriving DecidableEq, Inhabited

open Log (Record)

/-! ## Outcomes -/

/-- What an action leads to.  A failure keeps the calculator as it was at the
    point of failure. -/
structure Outcome (α : Type) where
  result : Except Failure α
  calculator : Calculator
  log : List Record := []

namespace Outcome

variable {α β : Type}

/-- The outcome with these records logged before its own. -/
def after (records : List Record) (outcome : Outcome α) : Outcome α :=
  { outcome with log := records ++ outcome.log }

/-- Continue with the value and the calculator of a success; a failure is
    final. -/
def andThen (outcome : Outcome α) (next : α → Calculator → Outcome β) : Outcome β :=
  match outcome.result with
  | .ok value => (next value outcome.calculator).after outcome.log
  | .error failure => ⟨.error failure, outcome.calculator, outcome.log⟩

end Outcome

/-! ## Work on the stack -/

namespace Calculator

/-- Run a computation on the stack. -/
def onStack {α : Type} (calculator : Calculator) (computation : StackM α) : Outcome α :=
  match computation.run calculator.stack with
  | .ok value stack => ⟨.ok value, { calculator with stack }, []⟩
  | .error failure stack => ⟨.error failure, { calculator with stack }, []⟩

def push (calculator : Calculator) (value : Float) : Outcome Unit :=
  calculator.onStack (Stack.push value)

def pop (calculator : Calculator) : Outcome Float :=
  calculator.onStack Stack.pop

/-- Apply the operation that a word names. -/
def applyWord (calculator : Calculator) (word : String) : Outcome Unit :=
  (calculator.onStack (Operation.applyNamed word)).after [.applying word calculator.stack.size]

/-- The calculator with an empty stack. -/
def cleared (calculator : Calculator) : Calculator :=
  { calculator with stack := {} }

/-- The calculator with one more evaluation on its tape. -/
def remember (calculator : Calculator) (expression : String) (result : Float) : Calculator :=
  { calculator with tape := calculator.tape.push ⟨expression, result⟩ }

/-- The calculator with an empty tape. -/
def forgetting (calculator : Calculator) : Calculator :=
  { calculator with tape := {} }

/-- The stack in words. -/
def stackText (calculator : Calculator) : String :=
  if calculator.stack.isEmpty then "Stack is empty"
  else
    "Current stack (bottom to top): " ++
      " ".intercalate (calculator.stack.values.map Number.text)

end Calculator

end ReversePolish

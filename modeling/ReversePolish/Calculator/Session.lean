/-
  Sessions: what a calculator can be asked for, and what it answers.

  * `Calculator.perform` performs one action;
  * `Calculator.performAll` performs a list of them, failures included.
-/
import ReversePolish.Calculator.Evaluate

namespace ReversePolish

namespace Calculator

/-- An action of a calculator. -/
inductive Action where
  | push (value : Float)
  | pop
  | clear
  | size
  | isEmpty
  | apply (word : String)
  | evaluate (expression : String)
  | evaluateAll (expressions : List String)
  | remember (expression : String) (result : Float)
  | forget
  | showStack
  /-- Show the first lines of the tape, or all. -/
  | showTape (limit : Option Nat)
  | entries
  deriving DecidableEq

/-- The answer to an action. -/
inductive Answer where
  | nothing
  | value (x : Float)
  | values (xs : List Float)
  | count (n : Nat)
  | flag (b : Bool)
  | text (content : String)
  | texts (contents : List String)
  | entries (entries : List Tape.Entry)
  deriving DecidableEq

variable {α : Type}

/-- The same outcome with an answer made of its value. -/
def answering (answer : α → Answer) (outcome : Outcome α) : Outcome Answer :=
  outcome.andThen fun value calculator => ⟨.ok (answer value), calculator, []⟩

/-- The lines of the tape, all or the first ones. -/
def tapeLines (calculator : Calculator) : (limit : Option Nat) → List String
  | none => calculator.tape.lines
  | some limit => calculator.tape.lines.take limit

/-- Perform an action. -/
def perform (calculator : Calculator) : Action → Outcome Answer
  | .push value => answering (fun _ => .nothing) (calculator.push value)
  | .pop => answering .value calculator.pop
  | .clear => ⟨.ok .nothing, calculator.cleared, []⟩
  | .size => ⟨.ok (.count calculator.stack.size), calculator, []⟩
  | .isEmpty => ⟨.ok (.flag calculator.stack.isEmpty), calculator, []⟩
  | .apply word => answering (fun _ => .nothing) (calculator.applyWord word)
  | .evaluate expression => answering .value (calculator.evaluate expression)
  | .evaluateAll expressions =>
    let batch := calculator.evaluateAll expressions
    ⟨.ok (.values batch.results), batch.calculator, batch.log⟩
  | .remember expression result => ⟨.ok .nothing, calculator.remember expression result, []⟩
  | .forget => ⟨.ok .nothing, calculator.forgetting, []⟩
  | .showStack => ⟨.ok (.text calculator.stackText), calculator, []⟩
  | .showTape limit => ⟨.ok (.texts (calculator.tapeLines limit)), calculator, []⟩
  | .entries => ⟨.ok (.entries calculator.tape.entries), calculator, []⟩

/-- Perform actions one after the other, each on the calculator that the one
    before has left. -/
def performAll (calculator : Calculator) : List Action → List (Outcome Answer)
  | [] => []
  | action :: actions =>
    let outcome := calculator.perform action
    outcome :: outcome.calculator.performAll actions

end Calculator

end ReversePolish

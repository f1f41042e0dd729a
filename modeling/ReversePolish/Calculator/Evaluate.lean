/-
  The evaluation of expressions in reverse Polish notation.

  * `Calculator.execute` executes the tokens of a stream up to the first
    failure;
  * `Calculator.evaluate` executes an expression, which has to leave exactly
    one value, and records the success;
  * `Calculator.evaluateAll` evaluates each expression on an empty stack,
    with a NaN in the place of a failure.
-/
import ReversePolish.Calculator.Basic
import ReversePolish.Token.Stream

namespace ReversePolish

open Log (Record)

/-- A stream reports a chunk when it reads it ahead. -/
def Token.Stream.announcement (stream : Token.Stream) : List Record :=
  stream.ahead.toList.map .scanned

namespace Calculator

/-! ## One expression -/

/-- Execute one token: a number goes on the stack, a word names an
    operation. -/
def executeToken (calculator : Calculator) : Token → Outcome Unit
  | .number value => calculator.push value
  | .word text => calculator.applyWord text

/-- Execute the tokens that a stream hands out.  Handing out a token makes
    the stream read the next chunk ahead, before the token is executed. -/
def execute (calculator : Calculator) (stream : Token.Stream) : Outcome Unit :=
  match _h : stream.next with
  | (none, _) => ⟨.ok (), calculator, []⟩
  | (some token, later) =>
    ((calculator.executeToken token).after later.announcement).andThen
      fun _ calculator => calculator.execute later
termination_by stream.size
decreasing_by exact Token.Stream.size_lt_of_next _h

/-- Take the only value of the stack as the value of the expression, and
    record it. -/
def conclude (calculator : Calculator) (expression : String) : Outcome Float :=
  match calculator.stack.topFirst with
  | [value] =>
    ⟨.ok value, calculator.cleared.remember expression value, [.evaluated expression value]⟩
  | values => ⟨.error (.notOneValue values.length), calculator, []⟩

/-- The value of an expression. -/
def evaluate (calculator : Calculator) (expression : String) : Outcome Float :=
  let stream := Token.Stream.ofText expression
  ((calculator.execute stream).after stream.announcement).andThen
    fun _ calculator => calculator.conclude expression

/-! ## Batches -/

/-- What a batch of expressions leads to. -/
structure BatchOutcome where
  /-- The values of the expressions, in their order. -/
  results : List Float
  calculator : Calculator
  log : List Record := []

/-- The result that marks a failure. -/
def failureMark : Float := 0.0 / 0.0

/-- The result of an expression of a batch, and the warning about a
    failure. -/
def batchResult (expression : String) : Except Failure Float → Float × List Record
  | .ok value => (value, [])
  | .error failure => (failureMark, [.failed expression failure])

/-- Evaluate each expression on an empty stack. -/
def evaluateAll (calculator : Calculator) : (expressions : List String) → BatchOutcome
  | [] => ⟨[], calculator, []⟩
  | expression :: expressions =>
    let outcome := calculator.cleared.evaluate expression
    let (result, warning) := batchResult expression outcome.result
    let rest := outcome.calculator.evaluateAll expressions
    ⟨result :: rest.results, rest.calculator, outcome.log ++ warning ++ rest.log⟩

end Calculator

end ReversePolish

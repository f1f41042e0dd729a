/-
  Depths: what the number of values on the stack alone says about an expression.

  * `Token.forecast` follows the number of values on the stack, up to the first
    token that lacks operands or is no operation;
  * `Token.execute_cases`: executing a token changes the size of the stack as
    forecast, or leaves the stack as it is;
  * `Calculator.evaluate_follows_forecast`: evaluations end as forecast, unless
    an operation rejects the values of its operands before.
-/
import ReversePolish.Proofs.Execution

namespace ReversePolish

open Token (FailsAt executeAll)

/-- What is known about executing tokens, without the values on the stack. -/
inductive Forecast where
  /-- The token at `position`, counted from `0`, fails; there are `depth` values
      on the stack by then. -/
  | stops (position : Nat) (failure : Failure) (depth : Nat)
  /-- All tokens find their operands; `depth` values are left. -/
  | passes (depth : Nat)
  deriving DecidableEq, Repr

/-- The forecast with one more token before the others. -/
def Forecast.later : Forecast → Forecast
  | stops position failure depth => stops (position + 1) failure depth
  | passes depth => passes depth

namespace Token

/-- The number of values on the stack after a token, if there are `depth`
    before. -/
def nextDepth (depth : Nat) : Token → Except Failure Nat
  | number _ => .ok (depth + 1)
  | word text =>
    match Operation.ofName? text with
    | some operation =>
      if operation.arity ≤ depth then .ok (depth + 1 - operation.arity) else .error .underflow
    | none => .error (.unknownWord text)

/-- The forecast for tokens that find `depth` values on the stack. -/
def forecast (depth : Nat) : List Token → Forecast
  | [] => .passes depth
  | token :: tokens =>
    match token.nextDepth depth with
    | .ok next => (forecast next tokens).later
    | .error failure => .stops 0 failure depth

variable {token : Token} {tokens : List Token} {depth next : Nat} {failure : Failure}

/-- An operation with enough operands has one value in their place. -/
theorem nextDepth_append {operation : Operation} (below : List Float) {operands : List Float}
    (h : operands.length = operation.arity) :
    nextDepth (below ++ operands).length (word operation.name) = .ok (below.length + 1) := by
  have hlen : (below ++ operands).length = below.length + operation.arity := by
    rw [List.length_append, h]
  have hnext : below.length + operation.arity + 1 - operation.arity = below.length + 1 := by
    omega
  simp [nextDepth, hlen, hnext]

theorem nextDepth_of_lt {operation : Operation} (h : depth < operation.arity) :
    nextDepth depth (word operation.name) = .error .underflow := by
  simp [nextDepth, Nat.not_le_of_lt h]

theorem nextDepth_of_none {text : String} (h : Operation.ofName? text = none) :
    nextDepth depth (word text) = .error (.unknownWord text) := by
  rw [nextDepth, h]

theorem forecast_cons_of_ok (h : token.nextDepth depth = .ok next) :
    forecast depth (token :: tokens) = (forecast next tokens).later := by
  rw [forecast, h]

theorem forecast_cons_of_error (h : token.nextDepth depth = .error failure) :
    forecast depth (token :: tokens) = .stops 0 failure depth := by
  rw [forecast, h]

/-! ## One token -/

/-- **Executing a token** changes the size of the stack as forecast, or fails
    and leaves the stack as it is: as forecast, or because of the values of the
    operands. -/
theorem execute_cases (token : Token) (stack : Stack) :
    (∃ next, token.execute.run stack = .ok () next ∧
      token.nextDepth stack.size = .ok next.size) ∨
    (∃ failure, token.execute.run stack = .error failure stack ∧
      token.nextDepth stack.size = .error failure) ∨
    (∃ failure depth, token.execute.run stack = .error failure stack ∧ failure.OfValues ∧
      token.nextDepth stack.size = .ok depth) := by
  obtain ⟨values, rfl⟩ := stack.exists_ofValues
  have hstep := step_execute token values
  rw [Stack.size_ofValues]
  generalize token.execute.run (.ofValues values) = result at hstep
  cases hstep with
  | number value =>
    refine Or.inl ⟨_, rfl, ?_⟩
    simp [nextDepth]
  | @applied operation below operands value hlen hc =>
    refine Or.inl ⟨_, rfl, ?_⟩
    rw [nextDepth_append below hlen, Stack.size_ofValues, List.length_append,
      List.length_singleton]
  | @rejected operation below operands failure hlen hc =>
    have hvalues := Operation.ofValues_of_compute hlen hc
    exact Or.inr (Or.inr ⟨failure, _, rfl, hvalues, nextDepth_append below hlen⟩)
  | lacking hlt => exact Or.inr (Or.inl ⟨_, rfl, nextDepth_of_lt hlt⟩)
  | unknown hname => exact Or.inr (Or.inl ⟨_, rfl, nextDepth_of_none hname⟩)

/-! ## Lists of tokens -/

/-- The token at `position` fails because of the values of its operands.  The
    forecast for the tokens before it is right, and lets it pass. -/
structure Interrupted (stack : Stack) (tokens : List Token) (position : Nat) (failure : Failure)
    (left : Stack) : Prop where
  ofValues : failure.OfValues
  fails : FailsAt stack tokens position failure left
  before : forecast stack.size (tokens.take position) = .passes left.size
  passes : ∃ depth, forecast stack.size (tokens.take (position + 1)) = .passes depth

/-- **Executing tokens** ends as forecast, or is interrupted. -/
theorem executeAll_cases (tokens : List Token) (stack : Stack) :
    (∃ left, (executeAll tokens).run stack = .ok () left ∧
      forecast stack.size tokens = .passes left.size) ∨
    (∃ position failure left, FailsAt stack tokens position failure left ∧
      forecast stack.size tokens = .stops position failure left.size) ∨
    (∃ position failure left, Interrupted stack tokens position failure left) := by
  induction tokens generalizing stack with
  | nil => exact Or.inl ⟨stack, rfl, rfl⟩
  | cons token tokens ih =>
    rcases execute_cases token stack with
      ⟨next, hrun, hdepth⟩ | ⟨failure, hrun, hdepth⟩ | ⟨failure, depth, hrun, hvalues, hdepth⟩
    · rcases ih next with
        ⟨left, hall, hf⟩ | ⟨position, failure, left, hfails, hf⟩ | ⟨position, failure, left, hi⟩
      · refine Or.inl ⟨left, (run_cons_of_ok hrun).trans hall, ?_⟩
        rw [forecast_cons_of_ok hdepth, hf]
        rfl
      · refine Or.inr (Or.inl ⟨position + 1, failure, left, .later hrun hfails, ?_⟩)
        rw [forecast_cons_of_ok hdepth, hf]
        rfl
      · obtain ⟨depth, hpasses⟩ := hi.passes
        refine Or.inr (Or.inr ⟨position + 1, failure, left, hi.ofValues, .later hrun hi.fails, ?_,
          depth, ?_⟩)
        · rw [List.take_succ_cons, forecast_cons_of_ok hdepth, hi.before]
          rfl
        · rw [List.take_succ_cons, forecast_cons_of_ok hdepth, hpasses]
          rfl
    · exact Or.inr (Or.inl ⟨0, failure, stack, .here hrun, forecast_cons_of_error hdepth⟩)
    · refine Or.inr (Or.inr ⟨0, failure, stack, hvalues, .here hrun, rfl, depth, ?_⟩)
      exact forecast_cons_of_ok hdepth

end Token

namespace Calculator

/-! ## Expressions -/

/-- The evaluation of the expression ends as the forecast says. -/
def Forecasted (calculator : Calculator) (expression : String) : Forecast → Prop
  | .stops position failure depth =>
    (calculator.evaluate expression).result = .error failure ∧
      (calculator.evaluate expression).calculator.stack.size = depth ∧
      FailsAt calculator.stack (Token.all expression) position failure
        (calculator.evaluate expression).calculator.stack
  | .passes depth =>
    ∃ left, (executeAll (Token.all expression)).run calculator.stack = .ok () left ∧
      left.size = depth ∧
      if depth = 1 then
        (∃ value, (calculator.evaluate expression).result = .ok value) ∧
          (calculator.evaluate expression).calculator.stack.size = 0
      else
        (calculator.evaluate expression).result = .error (.notOneValue depth) ∧
          (calculator.evaluate expression).calculator.stack = left

/-- **Shapes decide**: an evaluation ends as forecast from the size of the
    stack, or is interrupted by the values of operands at a token that the
    forecast lets pass. -/
theorem evaluate_follows_forecast (calculator : Calculator) (expression : String) :
    calculator.Forecasted expression
      (Token.forecast calculator.stack.size (Token.all expression)) ∨
    ∃ position failure,
      (calculator.evaluate expression).result = .error failure ∧
      Token.Interrupted calculator.stack (Token.all expression) position failure
        (calculator.evaluate expression).calculator.stack := by
  rcases Token.executeAll_cases (Token.all expression) calculator.stack with
    ⟨left, hall, hf⟩ | ⟨position, failure, left, hfails, hf⟩ | ⟨position, failure, left, hi⟩
  · refine Or.inl ?_
    rw [hf]
    refine ⟨left, hall, rfl, ?_⟩
    by_cases hsize : left.size = 1
    · obtain ⟨value, rfl⟩ := Stack.exists_of_size_eq_one hsize
      have hleaves := evaluate_of_one hall
      rw [if_pos hsize, hleaves.stack]
      exact ⟨⟨value, hleaves.result⟩, rfl⟩
    · have hleaves := evaluate_of_ne hall hsize
      rw [if_neg hsize, hleaves.stack]
      exact ⟨hleaves.result, left.ofValues_values⟩
  · have hleaves := evaluate_of_failure (Token.run_eq_error_iff.2 ⟨position, hfails⟩)
    refine Or.inl ?_
    rw [hf, Forecasted, hleaves.stack, Stack.ofValues_values]
    exact ⟨hleaves.result, rfl, hfails⟩
  · have hleaves := evaluate_of_failure (Token.run_eq_error_iff.2 ⟨position, hi.fails⟩)
    refine Or.inr ⟨position, failure, hleaves.result, ?_⟩
    rw [hleaves.stack, Stack.ofValues_values]
    exact hi

example : Token.forecast 1 [.word "sin", .word "+", .number 1.0] = .stops 1 .underflow 1 := by
  decide

end Calculator

end ReversePolish

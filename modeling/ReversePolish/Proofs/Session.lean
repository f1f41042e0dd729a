/-
  Whole sessions: what a sequence of actions leaves on the tape and on the
  stack.

  * `Calculator.afterAll` is the calculator that actions leave, `contribution`
    what one of them puts on the tape;
  * `Calculator.entries_perform` and `Calculator.stack_perform`: one action
    either forgets the tape or adds its contribution, and acts on the stack
    whatever is on the tape;
  * `Calculator.session_keeps`: the tape at the end has the contributions since
    it was last forgotten, and the stack is that of the session without the
    actions that do not concern it.
-/
import Mathlib.Data.List.DropRight
import ReversePolish.Calculator.Session
import ReversePolish.Proofs.Batch

namespace ReversePolish.Calculator

variable {α : Type} {calculator calculator' : Calculator}

/-! ## One action -/

/-- What an action with this result puts on the tape: the value of an
    expression, those of the expressions of a batch that have one, or the entry
    that it asks for. -/
def contribution : Action → Except Failure Answer → List Tape.Entry
  | .evaluate expression, .ok (.value value) => [⟨expression, value⟩]
  | .evaluateAll expressions, _ => expressions.flatMap entriesOf
  | .remember expression result, _ => [⟨expression, result⟩]
  | _, _ => []

/-- The action does not concern the stack: it is about the tape, or only shows
    something. -/
def Action.SparesStack : Action → Prop
  | .remember _ _ | .forget | .showStack | .showTape _ | .entries | .size | .isEmpty => True
  | .push _ | .pop | .clear | .apply _ | .evaluate _ | .evaluateAll _ => False

@[simp] theorem calculator_answering (answer : α → Answer) (outcome : Outcome α) :
    (answering answer outcome).calculator = outcome.calculator := by
  rcases hr : outcome.result with failure | value <;>
    simp [answering, Outcome.andThen, Outcome.after, hr]

@[simp] theorem result_answering (answer : α → Answer) (outcome : Outcome α) :
    (answering answer outcome).result = outcome.result.map answer := by
  rcases hr : outcome.result with failure | value <;>
    simp [answering, Outcome.andThen, Outcome.after, hr, Except.map]

@[simp] theorem tape_onStack (calculator : Calculator) (computation : StackM α) :
    (calculator.onStack computation).calculator.tape = calculator.tape := by
  rw [onStack]
  rcases computation.run calculator.stack with ⟨value, stack⟩ | ⟨failure, stack⟩ <;> rfl

theorem stack_onStack (h : calculator.stack = calculator'.stack) (computation : StackM α) :
    (calculator.onStack computation).calculator.stack =
      (calculator'.onStack computation).calculator.stack := by
  rw [onStack, onStack, h]
  rcases computation.run calculator'.stack with ⟨value, stack⟩ | ⟨failure, stack⟩ <;> rfl

theorem stack_evaluate (h : calculator.stack = calculator'.stack) (expression : String) :
    (calculator.evaluate expression).calculator.stack =
      (calculator'.evaluate expression).calculator.stack := by
  rcases hr : (Token.valueOf (Token.all expression)).run calculator.stack with
    ⟨value, left⟩ | ⟨failure, left⟩
  · rw [(evaluate_of_ok hr).stack, (evaluate_of_ok (h ▸ hr)).stack]
  · rw [(evaluate_of_error hr).stack, (evaluate_of_error (h ▸ hr)).stack]

/-- **One action on the tape**: it is forgotten, or continued. -/
theorem entries_perform (calculator : Calculator) (action : Action) :
    (calculator.perform action).calculator.tape.entries =
      if action = .forget then []
      else calculator.tape.entries ++ contribution action (calculator.perform action).result := by
  cases action with
  | push | pop | apply =>
    simp [perform, contribution, Calculator.push, Calculator.pop, applyWord, Outcome.after]
  | clear | size | isEmpty | showStack | showTape | entries => simp [perform, contribution, cleared]
  | remember expression result => simp [perform, contribution, remember, Tape.push]
  | forget => simp [perform, forgetting]
  | evaluate expression =>
    rcases hr : (Token.valueOf (Token.all expression)).run calculator.stack with
      ⟨value, left⟩ | ⟨failure, left⟩
    · have hleaves := evaluate_of_ok hr
      simp [perform, hleaves.result, hleaves.tape, contribution, Except.map, Tape.push]
    · have hleaves := evaluate_of_error hr
      simp [perform, hleaves.result, hleaves.tape, contribution, Except.map]
  | evaluateAll expressions =>
    simp [perform, contribution, (calculator.isolates_evaluateAll expressions).entries]

/-- **One action on the stack**: the tape makes no difference. -/
theorem stack_perform (h : calculator.stack = calculator'.stack) (action : Action) :
    (calculator.perform action).calculator.stack =
      (calculator'.perform action).calculator.stack := by
  cases action with
  | push | pop | apply =>
    rw [perform, perform, calculator_answering, calculator_answering]
    exact stack_onStack h _
  | evaluate expression =>
    rw [perform, perform, calculator_answering, calculator_answering]
    exact stack_evaluate h expression
  | evaluateAll expressions =>
    simp only [perform, (isolates_evaluateAll _ expressions).stack, h]
  | clear => rfl
  | size | isEmpty | showStack | showTape | entries | remember | forget => exact h

theorem stack_perform_of_spares {action : Action} (h : action.SparesStack)
    (calculator : Calculator) :
    (calculator.perform action).calculator.stack = calculator.stack := by
  cases action with
  | remember | forget | showStack | showTape | entries | size | isEmpty => rfl
  | push | pop | clear | apply | evaluate | evaluateAll => cases h

/-! ## Sequences of actions -/

/-- The calculator that the actions leave. -/
def afterAll (calculator : Calculator) (actions : List Action) : Calculator :=
  ((performAll calculator actions).getLast?.map Outcome.calculator).getD calculator

theorem afterAll_cons (calculator : Calculator) (action : Action) (actions : List Action) :
    calculator.afterAll (action :: actions) =
      (calculator.perform action).calculator.afterAll actions := by
  rw [afterAll, afterAll, performAll, List.getLast?_cons]
  rcases (performAll (calculator.perform action).calculator actions).getLast? with - | last <;> rfl

theorem performAll_concat (calculator : Calculator) (actions : List Action) (action : Action) :
    calculator.performAll (actions ++ [action]) =
      calculator.performAll actions ++ [(calculator.afterAll actions).perform action] := by
  induction actions generalizing calculator with
  | nil => rfl
  | cons first actions ih =>
    rw [List.cons_append, performAll, ih, afterAll_cons, performAll, List.cons_append]

theorem afterAll_concat (calculator : Calculator) (actions : List Action) (action : Action) :
    calculator.afterAll (actions ++ [action]) =
      ((calculator.afterAll actions).perform action).calculator := by
  rw [afterAll, performAll_concat, List.getLast?_concat]
  rfl

theorem length_performAll (calculator : Calculator) (actions : List Action) :
    (calculator.performAll actions).length = actions.length := by
  induction actions generalizing calculator with
  | nil => rfl
  | cons action actions ih => rw [performAll, List.length_cons, ih, List.length_cons]

/-- The contributions to the tape since it was last forgotten. -/
def contributions (actions : List Action) (outcomes : List (Outcome Answer)) : List Tape.Entry :=
  ((actions.zip outcomes).rtakeWhile fun step => step.1 ≠ .forget).flatMap
    fun step => contribution step.1 step.2.result

theorem contributions_concat {actions : List Action} {outcomes : List (Outcome Answer)}
    (h : actions.length = outcomes.length) (action : Action) (outcome : Outcome Answer) :
    contributions (actions ++ [action]) (outcomes ++ [outcome]) =
      if action = .forget then []
      else contributions actions outcomes ++ contribution action outcome.result := by
  rw [contributions, List.zip_append h, List.zip_cons_cons, List.zip_nil_left]
  by_cases hforget : action = .forget
  · rw [if_pos hforget, List.rtakeWhile_concat_neg _ _ _ (by simpa using hforget)]
    rfl
  · rw [if_neg hforget, List.rtakeWhile_concat_pos _ _ _ (by simpa using hforget),
      List.flatMap_append, List.flatMap_singleton]
    rfl

/-- The tape at the end of a session. -/
theorem entries_afterAll (actions : List Action) :
    (afterAll {} actions).tape.entries = contributions actions (performAll {} actions) := by
  -- from the last action backwards, as it is the last `forget` that counts
  induction actions using List.reverseRecOn with
  | nil => rfl
  | append_singleton actions action ih =>
    have hlen : actions.length = (performAll {} actions).length :=
      (length_performAll {} actions).symm
    rw [afterAll_concat, entries_perform, ih, performAll_concat, contributions_concat hlen]

/-- Actions that spare the stack can be left out, as far as it is concerned. -/
theorem stack_afterAll_filter {spared : Action → Bool}
    (hspared : ∀ action, spared action = true → action.SparesStack) (actions : List Action)
    (h : calculator.stack = calculator'.stack) :
    (calculator.afterAll (actions.filter (!spared ·))).stack =
      (calculator'.afterAll actions).stack := by
  induction actions generalizing calculator calculator' with
  | nil => exact h
  | cons action actions ih =>
    rw [afterAll_cons]
    by_cases hs : spared action = true
    · rw [List.filter_cons_of_neg (by simp [hs])]
      exact ih (h.trans (stack_perform_of_spares (hspared action hs) calculator').symm)
    · rw [List.filter_cons_of_pos (by simpa using hs), afterAll_cons]
      exact ih (stack_perform h action)

/-- **Sessions.**  At the end of any sequence of actions the tape has their
    contributions since it was last forgotten, in their order, and the stack is
    the same without any of the actions that do not concern it. -/
theorem session_keeps (actions : List Action) :
    (afterAll {} actions).tape.entries = contributions actions (performAll {} actions) ∧
      ∀ spared : Action → Bool, (∀ action, spared action = true → action.SparesStack) →
        (afterAll {} (actions.filter (!spared ·))).stack = (afterAll {} actions).stack :=
  ⟨entries_afterAll actions, fun _ hspared => stack_afterAll_filter hspared actions rfl⟩

end ReversePolish.Calculator

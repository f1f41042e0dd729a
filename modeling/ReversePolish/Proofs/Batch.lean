/-
  Batches: each expression is evaluated as if it were alone.

  * `Calculator.alone` is the evaluation of an expression on a new calculator,
    `slotOf`, `entriesOf` and `warningsOf` what a batch makes of it;
  * `Calculator.evaluate_cleared`: an evaluation on an empty stack is that on a
    new calculator, but for the tape that it continues;
  * `Calculator.evaluateAll_append`: a batch is the batches of its parts, one
    after the other;
  * `Calculator.evaluateAll_as_alone`: what a batch leads to.
-/
import ReversePolish.Proofs.Execution

namespace ReversePolish.Calculator

open Log (Record)

/-! ## An expression of a batch -/

/-- The evaluation of an expression on a new calculator. -/
def alone (expression : String) : Outcome Float :=
  evaluate {} expression

/-- The result of an expression in a batch. -/
def slotOf (expression : String) : Float :=
  match (alone expression).result with
  | .ok value => value
  | .error _ => failureMark

/-- The entry that an expression with a value adds to the tape. -/
def entriesOf (expression : String) : List Tape.Entry :=
  match (alone expression).result with
  | .ok value => [⟨expression, value⟩]
  | .error _ => []

/-- The warning about an expression that fails. -/
def warningsOf (expression : String) : List String :=
  match (alone expression).result with
  | .ok _ => []
  | .error failure => [s!"expression '{expression}' failed: {failure.message}"]

/-- The messages of the warnings in a log. -/
def warned (log : List Record) : List String :=
  (log.filter fun record => record.level = .warn).map Record.message

theorem warned_append (log log' : List Record) :
    warned (log ++ log') = warned log ++ warned log' := by
  simp [warned]

theorem Quiet.warned {log : List Record} (h : Quiet log) : warned log = [] := by
  have hnone : log.filter (fun record => record.level = .warn) = [] := by
    rw [List.filter_eq_nil_iff]
    intro record hr
    simpa using h record hr
  rw [Calculator.warned, hnone]
  rfl

/-- **On an empty stack** an expression is evaluated as on a new calculator; a
    success goes on the tape that there is. -/
theorem evaluate_cleared (calculator : Calculator) (expression : String) :
    (calculator.cleared.evaluate expression).result = (alone expression).result ∧
      (calculator.cleared.evaluate expression).calculator.stack =
        (alone expression).calculator.stack ∧
      (calculator.cleared.evaluate expression).calculator.tape.entries =
        calculator.tape.entries ++ entriesOf expression := by
  rcases hr : (Token.valueOf (Token.all expression)).run {} with ⟨value, left⟩ | ⟨failure, left⟩
  · have hcleared : (calculator.cleared.evaluate expression).Leaves _ _ _ := evaluate_of_ok hr
    have halone : (alone expression).Leaves _ _ _ := evaluate_of_ok hr
    rw [entriesOf, hcleared.result, hcleared.stack, hcleared.tape, halone.result, halone.stack]
    exact ⟨rfl, rfl, rfl⟩
  · have hcleared : (calculator.cleared.evaluate expression).Leaves _ _ _ := evaluate_of_error hr
    have halone : (alone expression).Leaves _ _ _ := evaluate_of_error hr
    rw [entriesOf, hcleared.result, hcleared.stack, hcleared.tape, halone.result, halone.stack]
    exact ⟨rfl, rfl, (List.append_nil _).symm⟩

theorem batchResult_alone (expression : String) :
    (batchResult expression (alone expression).result).1 = slotOf expression ∧
      warned (batchResult expression (alone expression).result).2 = warningsOf expression := by
  rw [slotOf, warningsOf]
  rcases (alone expression).result with failure | value
  · exact ⟨rfl, rfl⟩
  · exact ⟨rfl, rfl⟩

/-! ## Batches -/

/-- **Batches in a row** are the batch of all their expressions. -/
theorem evaluateAll_append (calculator : Calculator) (xs ys : List String) :
    calculator.evaluateAll (xs ++ ys) =
      let first := calculator.evaluateAll xs
      let second := first.calculator.evaluateAll ys
      ⟨first.results ++ second.results, second.calculator, first.log ++ second.log⟩ := by
  induction xs generalizing calculator with
  | nil => rfl
  | cons x xs ih => simp only [List.cons_append, evaluateAll, ih, List.append_assoc]

/-- The batch leads to what each of its expressions leads to alone. -/
structure Isolates (calculator : Calculator) (expressions : List String) (batch : BatchOutcome) :
    Prop where
  results : batch.results = expressions.map slotOf
  entries : batch.calculator.tape.entries = calculator.tape.entries ++ expressions.flatMap entriesOf
  warned : warned batch.log = expressions.flatMap warningsOf
  /-- The last expression leaves the stack. -/
  stack : batch.calculator.stack =
    (expressions.getLast?.map fun last => (alone last).calculator.stack).getD calculator.stack

theorem isolates_evaluateAll (calculator : Calculator) (expressions : List String) :
    Isolates calculator expressions (calculator.evaluateAll expressions) := by
  induction expressions generalizing calculator with
  | nil => exact ⟨rfl, (List.append_nil _).symm, rfl, rfl⟩
  | cons x xs ih =>
    obtain ⟨hresult, hstack, hentries⟩ := calculator.evaluate_cleared x
    obtain ⟨hslot, hwarnings⟩ := batchResult_alone x
    have hquiet := (quiet_evaluate calculator.cleared x).warned
    have hrest := ih (calculator.cleared.evaluate x).calculator
    refine ⟨?_, ?_, ?_, ?_⟩
    · simp only [evaluateAll, hresult, hslot, hrest.results, List.map_cons]
    · simp only [evaluateAll, hrest.entries, hentries, List.flatMap_cons, List.append_assoc]
    · simp only [evaluateAll, warned_append, hquiet, hresult, hwarnings, hrest.warned,
        List.flatMap_cons, List.nil_append]
    · simp only [evaluateAll, hrest.stack, hstack, List.getLast?_cons, Option.map_some,
        Option.getD_some]
      rcases xs.getLast? with - | last <;> rfl

/-- **Batches isolate their expressions.**  Results, new entries, warnings and
    the final stack are those of the expressions on new calculators; it makes no
    difference where a batch is cut in two. -/
theorem evaluateAll_as_alone (calculator : Calculator) :
    (∀ expressions, Isolates calculator expressions (calculator.evaluateAll expressions) ∧
      (calculator.evaluateAll expressions).results.length = expressions.length) ∧
    failureMark.isNaN = true ∧
    ∀ xs ys,
      let first := calculator.evaluateAll xs
      let second := first.calculator.evaluateAll ys
      calculator.evaluateAll (xs ++ ys) =
        ⟨first.results ++ second.results, second.calculator, first.log ++ second.log⟩ := by
  refine ⟨fun expressions => ?_, by decide, calculator.evaluateAll_append⟩
  have h := calculator.isolates_evaluateAll expressions
  exact ⟨h, by rw [h.results, List.length_map]⟩

end ReversePolish.Calculator

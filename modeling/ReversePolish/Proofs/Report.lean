/-
  What is reported of a batch.

  * `Calculator.logOf`: what a batch logs on an expression, and
    `Calculator.log_evaluateAll`: this does not depend on the calculator;
  * `Shell.report`: the lines that are printed of a batch;
  * `Shell.stdout_showBatch_eq` and `Shell.stderr_showBatch`: both are what is
    shown of a batch.
-/
import ReversePolish.Proofs.Course
import ReversePolish.Proofs.FailureMark

namespace ReversePolish

/-! ## Texts of numbers -/

namespace Number

theorem newline_notMem_text (x : Float) : '\n' ∉ (text x).toList := by
  intro h
  rcases mem_text h with hmark | hword
  · simp [Literal.IsMark] at hmark
  · exact absurd hword (by decide)

end Number

/-! ## Logs -/

namespace Calculator

open Log (Record)

/-- What a batch logs on an expression. -/
def logOf (expression : String) : List Record :=
  (alone expression).log ++ (batchResult expression (alone expression).result).2

theorem log_cleared (calculator : Calculator) (expression : String) :
    (calculator.cleared.evaluate expression).log = (alone expression).log := by
  have hresult := (calculator.evaluate_cleared expression).1
  rw [log_evaluate, hresult, alone, log_evaluate]
  rfl

/-- **The log of a batch** does not depend on the calculator. -/
theorem log_evaluateAll (calculator : Calculator) (expressions : List String) :
    (calculator.evaluateAll expressions).log = expressions.flatMap logOf := by
  induction expressions generalizing calculator with
  | nil => rfl
  | cons expression expressions ih =>
    have hresult := (calculator.evaluate_cleared expression).1
    simp only [evaluateAll, ih, hresult, calculator.log_cleared, List.flatMap_cons, logOf]

end Calculator

/-! ## Reports -/

namespace Shell

open Calculator (slotOf logOf)

/-- A result as a report shows it. -/
def shownResult (result : Float) : String :=
  if result.isNaN then "Error" else Number.text result

/-- The lines that are printed of a batch. -/
def report (expressions : List String) : List String :=
  "Calculation Results:" :: expressions.zipIdx.map fun (expression, position) =>
    s!"{position + 1}. {expression} = {shownResult (slotOf expression)}"

theorem newline_notMem_shownResult (result : Float) : '\n' ∉ (shownResult result).toList := by
  unfold shownResult
  split
  · decide
  · exact Number.newline_notMem_text result

/-- The lines of a report are lines, if the expressions are. -/
theorem newline_notMem_report {expressions : List String}
    (h : ∀ expression ∈ expressions, '\n' ∉ expression.toList) :
    ∀ line ∈ report expressions, '\n' ∉ line.toList := by
  intro line hline
  rcases List.mem_cons.1 hline with rfl | hline
  · decide
  obtain ⟨⟨expression, position⟩, hmem, rfl⟩ := List.mem_map.1 hline
  have hposition : '\n' ∉ (toString (position + 1)).toList := by
    rw [Nat.toString_eq_repr, Nat.toList_repr]
    intro hdigit
    exact absurd (Nat.isDigit_of_mem_toDigits (by decide) (by decide) hdigit) (by decide)
  have hexpression : '\n' ∉ (toString expression).toList :=
    h expression (List.fst_mem_of_mem_zipIdx hmem)
  have hdot : '\n' ∉ (toString ". ").toList := by decide
  have hequals : '\n' ∉ (toString " = ").toList := by decide
  have hresult : '\n' ∉ (toString (shownResult (slotOf expression))).toList :=
    newline_notMem_shownResult _
  simp only [String.toList_append, List.mem_append, not_or]
  exact ⟨⟨⟨⟨hposition, hdot⟩, hexpression⟩, hequals⟩, hresult⟩

theorem stdout_showBatch_eq (calculator : Calculator) (expressions : List String) :
    stdout (showBatch calculator expressions).2 = unlines (report expressions) := by
  have hresults := (calculator.isolates_evaluateAll expressions).results
  rw [stdout_showBatch, hresults, resultLines_map, unlines, report, List.map_cons, List.map_map]
  rfl

theorem stderr_showBatch (filter : Log.Filter) (calculator : Calculator)
    (expressions : List String) :
    stderr filter (showBatch calculator expressions).2 =
      stderr filter ((expressions.flatMap logOf).map .log) := by
  rw [showBatch, ← List.singleton_append, stderr_append, stderr_append, stderr_map_output,
    String.append_empty, calculator.log_evaluateAll]
  exact String.empty_append

theorem slotOf_quit : (slotOf "q").isNaN = true := by
  have hchunks : Text.chunks "q" = ["q"] := by decide +kernel
  have hrun : (Token.executeAll (Token.all "q")).run {} =
      .error (.unknownWord "q") (Stack.ofValues []) := by
    rw [Token.all_eq_map, hchunks]
    rfl
  have hleaves : (Calculator.alone "q").Leaves (.error (.unknownWord "q")) _ _ :=
    Calculator.evaluate_of_failure hrun
  rw [slotOf, hleaves.result]
  decide

theorem unlines_report_quit :
    unlines (report ["q"]) = "Calculation Results:\n1. q = Error\n" := by
  have hshown : shownResult (slotOf "q") = "Error" := if_pos slotOf_quit
  have hreport : report ["q"] =
      ["Calculation Results:", "1. q = " ++ shownResult (slotOf "q")] := rfl
  rw [hreport, hshown]
  decide

end Shell

end ReversePolish

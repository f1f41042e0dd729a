/-
  What a NaN among the results of a batch means.

  A NaN marks a failed expression.  It is also the value of some expressions,
  which are then shown as errors, though they go on the tape and no warning is
  given.

  * `Calculator.Fails` and `Calculator.YieldsNaN` are the two kinds of
    expressions with a NaN among the results;
  * `Shell.resultLine_eq_error_iff`: the line on a result is the one on an error
    exactly for a NaN;
  * `Shell.stdout_showBatch`: what is shown of a batch;
  * `Calculator.evaluateAll_marks`: how a batch reports its expressions, and when
    the marks stand for the failures alone;
  * `Calculator.product_shown_as_error`: an expression with a value that is shown
    as an error.
-/
import ReversePolish.Proofs.Batch
import ReversePolish.Proofs.Output
import ReversePolish.Proofs.Postfix
import ReversePolish.Shell.Basic

namespace ReversePolish

/-! ## The text of a number -/

namespace Number

open Float.Model.UnpackedFloat (Sign)
open Literal (IsMark)

theorem Decimal.isMark_of_mem_digits {d : Decimal} {c : Char} (h : c ∈ d.digits) : IsMark c := by
  have hwritten : ∀ c ∈ Nat.toDigits 10 d.coefficient, IsMark c := fun c hc =>
    Or.inl (Nat.isDigit_of_mem_toDigits (by decide) (by decide) hc)
  have hzeros : ∀ n, ∀ c ∈ List.replicate n '0', IsMark c := fun n c hc => by
    rw [List.eq_of_mem_replicate hc]
    exact Or.inl rfl
  -- a fraction is padded with zeros before its point is placed
  have hpadded : ∀ n, ∀ c ∈ List.replicate n '0' ++ Nat.toDigits 10 d.coefficient, IsMark c :=
    fun n c hc => (List.mem_append.1 hc).elim (hzeros n c) (hwritten c)
  unfold digits at h
  split at h
  · exact (List.mem_append.1 h).elim (hwritten c) (hzeros _ c)
  · rcases List.mem_append.1 h with h | h
    · exact hpadded _ c (List.mem_of_mem_take h)
    rcases List.mem_cons.1 h with rfl | h
    · exact Or.inr (by simp)
    · exact hpadded _ c (List.mem_of_mem_drop h)

/-- The text of a number has characters of literals and those of its words. -/
theorem mem_text {x : Float} {c : Char} (h : c ∈ (text x).toList) :
    IsMark c ∨ c ∈ "NaN".toList ++ "inf".toList := by
  have hsign : ∀ sign, ∀ c ∈ (signText sign).toList, IsMark c := by
    rintro (_ | _) c hc <;> simp_all [signText, IsMark]
  unfold text at h
  split at h
  · exact Or.inr (List.mem_append_left _ h)
  · next sign _ =>
    rcases List.mem_append.1 (String.toList_append ▸ h) with h | h
    · exact Or.inl (hsign sign c h)
    · exact Or.inr (List.mem_append_right _ h)
  · next sign _ =>
    rcases List.mem_append.1 (String.toList_append ▸ h) with h | h
    · exact Or.inl (hsign sign c h)
    · rw [List.mem_singleton.1 h]
      exact Or.inl (Or.inl rfl)
  · next sign mantissa exponent _ _ =>
    rcases List.mem_append.1 (String.toList_append ▸ h) with h | h
    · exact Or.inl (hsign sign c h)
    · rw [String.toList_ofList] at h
      exact Or.inl (Decimal.isMark_of_mem_digits h)

/-- No number is written as an error: the `r` does not occur in its text. -/
theorem text_ne_error (x : Float) : text x ≠ "Error" := by
  intro heq
  have hr : 'r' ∈ (text x).toList := by
    rw [heq]
    decide
  rcases mem_text hr with hmark | hword
  · simp [IsMark] at hmark
  · exact absurd hword (by decide)

end Number

/-! ## Lines -/

namespace Shell

theorem resultLine_eq_error_iff (position : Nat) (expression : String) (result : Float) :
    resultLine position expression result = s!"{position + 1}. {expression} = Error\n" ↔
      result.isNaN = true := by
  have hsplit : toString " = Error\n" = toString " = " ++ toString "Error" ++ toString "\n" := by
    decide
  rw [resultLine, hsplit, ← String.append_assoc, ← String.append_assoc, String.append_left_inj,
    String.append_right_inj]
  by_cases h : result.isNaN = true
  · rw [if_pos h]
    exact iff_of_true rfl h
  · rw [if_neg h]
    exact iff_of_false (Number.text_ne_error result) h

/-- **What is shown of a batch**: the lines on its results, under a heading. -/
theorem stdout_showBatch (calculator : Calculator) (expressions : List String) :
    stdout (showBatch calculator expressions).2 =
      String.join ("Calculation Results:\n" ::
        resultLines expressions (calculator.evaluateAll expressions).results) := by
  rw [showBatch, stdout_append, ← List.singleton_append, stdout_append, stdout_map_log,
    stdout_map_output, String.join_cons]
  rfl

theorem zip_map_self {α β : Type} (f : α → β) (xs : List α) :
    xs.zip (xs.map f) = xs.map fun x => (x, f x) := by
  have h : (xs.map id).zip (xs.map f) = xs.map fun x => (x, f x) := List.zip_map'
  rwa [List.map_id] at h

theorem resultLines_map (expressions : List String) (result : String → Float) :
    resultLines expressions (expressions.map result) =
      expressions.zipIdx.map fun (expression, position) =>
        resultLine position expression (result expression) := by
  rw [resultLines, zip_map_self, List.zipIdx_map, List.map_map]
  rfl

end Shell

/-! ## Batches -/

namespace Calculator

/-- The expression has no value. -/
def Fails (expression : String) : Prop :=
  ∃ failure, (alone expression).result = .error failure

/-- The expression has a value, a NaN. -/
def YieldsNaN (expression : String) : Prop :=
  ∃ value, (alone expression).result = .ok value ∧ value.isNaN = true

theorem Fails.not_yieldsNaN {expression : String} (h : Fails expression) :
    ¬ YieldsNaN expression := by
  rintro ⟨value, hvalue, -⟩
  obtain ⟨failure, hfailure⟩ := h
  cases hvalue.symm.trans hfailure

theorem isNaN_slotOf_iff (expression : String) :
    (slotOf expression).isNaN = true ↔ Fails expression ∨ YieldsNaN expression := by
  have hmark : failureMark.isNaN = true := by decide
  rw [slotOf, Fails, YieldsNaN]
  rcases (alone expression).result with failure | value
  · exact iff_of_true hmark (.inl ⟨failure, rfl⟩)
  · refine ⟨fun h => .inr ⟨value, rfl, h⟩, ?_⟩
    rintro (⟨_, hfailure⟩ | ⟨_, hvalue, h⟩)
    · cases hfailure
    · cases hvalue
      exact h

theorem warningsOf_eq_nil_iff (expression : String) :
    warningsOf expression = [] ↔ ¬ Fails expression := by
  rw [warningsOf, Fails]
  rcases (alone expression).result with failure | value <;> simp

theorem entriesOf_eq_nil_iff (expression : String) :
    entriesOf expression = [] ↔ Fails expression := by
  rw [entriesOf, Fails]
  rcases (alone expression).result with failure | value <;> simp

/-- How a batch reports the expression at `position`, counted from `0`. -/
structure Reports (position : Nat) (expression : String) : Prop where
  isNaN_slot : (slotOf expression).isNaN = true ↔ Fails expression ∨ YieldsNaN expression
  line_eq_error :
    Shell.resultLine position expression (slotOf expression) =
        s!"{position + 1}. {expression} = Error\n" ↔
      Fails expression ∨ YieldsNaN expression
  /-- Any other value is shown. -/
  line_of_ok : ∀ value, (alone expression).result = .ok value → value.isNaN = false →
    Shell.resultLine position expression (slotOf expression) =
      s!"{position + 1}. {expression} = {Number.text value}\n"
  /-- There are warnings about failures only. -/
  warnings_eq_nil : warningsOf expression = [] ↔ ¬ Fails expression
  /-- Everything else goes on the tape. -/
  entries_eq_nil : entriesOf expression = [] ↔ Fails expression

theorem reports (position : Nat) (expression : String) : Reports position expression where
  isNaN_slot := isNaN_slotOf_iff expression
  line_eq_error :=
    (Shell.resultLine_eq_error_iff position expression _).trans (isNaN_slotOf_iff expression)
  line_of_ok value hvalue hnumber := by
    rw [slotOf, hvalue, Shell.resultLine, hnumber]
    rfl
  warnings_eq_nil := warningsOf_eq_nil_iff expression
  entries_eq_nil := entriesOf_eq_nil_iff expression

/-- **The marks of a batch.**  A NaN, and with it the line on an error, stands for
    a failure or for a value that is a NaN; warnings and entries tell the two
    apart.  The marks stand for the failures alone if and only if no value is a
    NaN. -/
theorem evaluateAll_marks (calculator : Calculator) (expressions : List String) :
    let batch := calculator.evaluateAll expressions
    Isolates calculator expressions batch ∧
    Shell.stdout (Shell.showBatch calculator expressions).2 =
      String.join ("Calculation Results:\n" :: expressions.zipIdx.map fun (expression, position) =>
        Shell.resultLine position expression (slotOf expression)) ∧
    (∀ position expression, Reports position expression) ∧
    ((∀ expression result, (expression, result) ∈ expressions.zip batch.results →
        (result.isNaN = true ↔ Fails expression)) ↔
      ∀ expression ∈ expressions, ¬ YieldsNaN expression) := by
  have hbatch := calculator.isolates_evaluateAll expressions
  refine ⟨hbatch, ?_, reports, ?_⟩
  · rw [Shell.stdout_showBatch, hbatch.results, Shell.resultLines_map]
  rw [hbatch.results, Shell.zip_map_self]
  constructor
  · intro hmarks expression he hnan
    have hslot := (isNaN_slotOf_iff expression).2 (.inr hnan)
    exact ((hmarks _ _ (List.mem_map_of_mem he)).1 hslot).not_yieldsNaN hnan
  · intro hnone expression result hmem
    obtain ⟨_, he, heq⟩ := List.mem_map.1 hmem
    cases heq
    exact (isNaN_slotOf_iff expression).trans (or_iff_left (hnone expression he))

theorem ofChunk_zero : Token.ofChunk "0" = .number 0.0 := rfl

/-- A numeral whose square is out of range. -/
def large : Numeral :=
  ⟨"1e200", 1e200, by decide +kernel⟩

/-- The tree of `(1e200 * 1e200) * 0`. -/
def overflowingProduct : Tree Numeral :=
  .ofOperands .multiply
    [.ofOperands .multiply [.leaf large, .leaf large] rfl, .leaf ⟨"0", 0.0, ofChunk_zero⟩] rfl

theorem spaced_overflowingProduct :
    Text.Spaced overflowingProduct.chunks "1e200 1e200 * 0 *" :=
  ⟨[], _, [], Text.isGap_of_all rfl,
    .cons "1e200" [' '] (by simp) (Text.isGap_of_all rfl) <|
      .cons "1e200" [' '] (by simp) (Text.isGap_of_all rfl) <|
      .cons "*" [' '] (by simp) (Text.isGap_of_all rfl) <|
      .cons "0" [' '] (by simp) (Text.isGap_of_all rfl) (.one "*"),
    Text.isGap_of_all rfl, rfl⟩

theorem alone_overflowingProduct :
    (alone "1e200 1e200 * 0 *").result = .ok failureMark := by
  have hvalue : overflowingProduct.numbers.value = .ok failureMark := by decide +kernel
  have hrun := Tree.run_tokens hvalue []
  have htokens : Token.all "1e200 1e200 * 0 *" = overflowingProduct.numbers.tokens := by
    rw [Token.all_of_spaced overflowingProduct.isChunk_of_mem_chunks spaced_overflowingProduct,
      overflowingProduct.map_ofChunk_chunks]
  rw [← htokens] at hrun
  exact (evaluate_of_one hrun).result

/-- **A value shown as an error.**  The expression does not fail: it goes on the
    tape with its value, and there is no warning.  But its line is the one on an
    error. -/
theorem product_shown_as_error :
    let batch := evaluateAll {} ["1e200 1e200 * 0 *"]
    ¬ Fails "1e200 1e200 * 0 *" ∧ warned batch.log = [] ∧
      batch.calculator.tape.entries = [⟨"1e200 1e200 * 0 *", failureMark⟩] ∧
      batch.results = [failureMark] ∧ failureMark.isNaN = true ∧
      Shell.stdout (Shell.showBatch {} ["1e200 1e200 * 0 *"]).2 =
        "Calculation Results:\n1. 1e200 1e200 * 0 * = Error\n" := by
  have hbatch := isolates_evaluateAll {} ["1e200 1e200 * 0 *"]
  have hvalue := alone_overflowingProduct
  have hfails : ¬ Fails "1e200 1e200 * 0 *" := by
    rintro ⟨failure, hfailure⟩
    cases hvalue.symm.trans hfailure
  have hresults : (evaluateAll {} ["1e200 1e200 * 0 *"]).results = [failureMark] := by
    rw [hbatch.results, List.map_singleton, slotOf, hvalue]
  refine ⟨hfails, ?_, ?_, hresults, by decide, ?_⟩
  · rw [hbatch.warned, List.flatMap_singleton]
    exact (warningsOf_eq_nil_iff _).2 hfails
  · rw [hbatch.entries, List.flatMap_singleton, entriesOf, hvalue]
    rfl
  · rw [Shell.stdout_showBatch, hresults]
    decide +kernel

end Calculator

end ReversePolish

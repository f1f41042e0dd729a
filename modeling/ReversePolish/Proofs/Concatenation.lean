/-
  Expressions put together, with blanks between them.

  * `Token.all_append`: the tokens are those of the one, then those of the
    other;
  * `Calculator.Parallel` are evaluations of two texts that come to the same, but
    for the text that a success is recorded under;
  * `Calculator.evaluate_append`: what the first expression leads to, the second
    goes on from.
-/
import ReversePolish.Proofs.Atomicity
import ReversePolish.Proofs.Chunks

namespace ReversePolish

open Text (IsGap)

/-- **Blanks between two texts** keep their tokens apart. -/
theorem Token.all_append {gap : String} (hgap : IsGap gap.toList) (hne : gap ≠ "")
    (first second : String) : all (first ++ gap ++ second) = all first ++ all second := by
  rw [all_eq_map, Text.chunks_append hgap hne, List.map_append, ← all_eq_map, ← all_eq_map]

namespace Calculator

open Token (executeAll valueOf)

/-! ## Evaluations that differ in their text -/

/-- The tape after an evaluation of `expression` with this result. -/
def recording (tape : Tape) (expression : String) : Except Failure Float → Tape
  | .ok value => tape.push ⟨expression, value⟩
  | .error _ => tape

/-- An evaluation of `expression` and one of `expression'`, on calculators with the
    same tape, come to the same.  A success is recorded as one of the expression
    that was evaluated. -/
structure Parallel (tape : Tape) (expression expression' : String)
    (outcome outcome' : Outcome Float) : Prop where
  result : outcome.result = outcome'.result
  stack : outcome.calculator.stack = outcome'.calculator.stack
  entry : outcome.calculator.tape = recording tape expression outcome.result
  entry' : outcome'.calculator.tape = recording tape expression' outcome'.result

variable {tape : Tape} {first second gap expression expression' : String}

/-- Evaluations that are the same on the stack alone are parallel. -/
theorem Records.parallel {result : EStateM.Result Failure Stack Float}
    {outcome outcome' : Outcome Float} (h : Records tape expression result outcome)
    (h' : Records tape expression' result outcome') :
    Parallel tape expression expression' outcome outcome' := by
  cases h with
  | ok => cases h'; exact ⟨rfl, rfl, rfl, rfl⟩
  | error => cases h'; exact ⟨rfl, rfl, rfl, rfl⟩

/-! ## The second expression -/

theorem valueOf_append_of_ok {tokens tokens' : List Token} {stack left : Stack}
    (h : (executeAll tokens).run stack = .ok () left) :
    (valueOf (tokens ++ tokens')).run stack = (valueOf tokens').run left := by
  simp only [valueOf, EStateM.run_bind, Token.run_append_of_ok h]

/-- Where the first expression leads to a stack, the second is evaluated on that
    stack. -/
theorem parallel_of_ok {calculator reached : Calculator} (hgap : IsGap gap.toList)
    (hne : gap ≠ "")
    (h : (executeAll (Token.all first)).run calculator.stack = .ok () reached.stack)
    (htape : reached.tape = calculator.tape) :
    Parallel calculator.tape (first ++ gap ++ second) second
      (calculator.evaluate (first ++ gap ++ second)) (reached.evaluate second) := by
  have hwhole := calculator.records_evaluate (first ++ gap ++ second)
  rw [Token.all_append hgap hne, valueOf_append_of_ok h] at hwhole
  have hsecond := reached.records_evaluate second
  rw [htape] at hsecond
  exact hwhole.parallel hsecond

/-- **Expressions go on from one another.**  A failure among the tokens of the first
    is that of the whole, on the same stack.  Otherwise the whole is evaluated as
    the second is, on the stack that the first leads to.  So are the two one after
    the other, if the first leaves no or several values. -/
theorem evaluate_append (calculator : Calculator) (first second : String)
    (hgap : IsGap gap.toList) (hne : gap ≠ "") :
    (∀ failure, (calculator.execute (.ofText first)).result = .error failure →
      (calculator.evaluate first).result = .error failure ∧
      (calculator.evaluate (first ++ gap ++ second)).result = .error failure ∧
      (calculator.evaluate (first ++ gap ++ second)).calculator =
        (calculator.evaluate first).calculator) ∧
    ((calculator.execute (.ofText first)).result = .ok () →
      Parallel calculator.tape (first ++ gap ++ second) second
        (calculator.evaluate (first ++ gap ++ second))
        ((calculator.execute (.ofText first)).calculator.evaluate second)) ∧
    (∀ count, (calculator.evaluate first).result = .error (.notOneValue count) →
      Parallel calculator.tape (first ++ gap ++ second) second
        (calculator.evaluate (first ++ gap ++ second))
        ((calculator.evaluate first).calculator.evaluate second)) := by
  rcases hrun : (executeAll (Token.all first)).run calculator.stack with
    ⟨⟨⟩, left⟩ | ⟨failure, left⟩
  · have hreached := execute_of_ok hrun
    have hstack : (calculator.execute (.ofText first)).calculator.stack = left :=
      hreached.stack.trans left.ofValues_values
    refine ⟨fun failure h => ?_, fun _ => ?_, fun count h => ?_⟩
    · rw [hreached.result] at h
      cases h
    · exact parallel_of_ok hgap hne (hstack ▸ hrun) hreached.tape
    · -- the first expression left the stack that its tokens lead to
      have hsize : left.size ≠ 1 := by
        intro hone
        obtain ⟨value, rfl⟩ := Stack.exists_of_size_eq_one hone
        rw [(evaluate_of_one hrun).result] at h
        cases h
      have hleaves := evaluate_of_ne hrun hsize
      have hstack : (calculator.evaluate first).calculator.stack = left :=
        hleaves.stack.trans left.ofValues_values
      exact parallel_of_ok hgap hne (hstack ▸ hrun) hleaves.tape
  · have hreached := execute_of_error hrun
    have hfirst := evaluate_of_failure hrun
    have hwhole : (executeAll (Token.all (first ++ gap ++ second))).run calculator.stack =
        .error failure left := by
      rw [Token.all_append hgap hne, Token.run_append_of_error hrun]
    have hwhole := evaluate_of_failure hwhole
    refine ⟨fun failure' h => ?_, fun h => ?_, fun count h => ?_⟩
    · rw [hreached.result] at h
      cases h
      exact ⟨hfirst.result, hwhole.result, hwhole.calculator_eq.trans hfirst.calculator_eq.symm⟩
    · rw [hreached.result] at h
      cases h
    · -- no token fails for the number of values
      obtain ⟨position, hfails⟩ := Token.run_eq_error_iff.1 hrun
      obtain ⟨-, token, -, hfail⟩ := hfails.reaches
      rw [hfirst.result] at h
      cases h
      exact absurd rfl (Token.ne_notOneValue_of_error hfail count)

/-- Two operands, and then their sum: the blank between the expressions is wider than
    those of ASCII. -/
theorem evaluate_append_sum :
    IsGap "\u3000".toList ∧ "\u3000" ≠ "" ∧
      (evaluate {} "1 2").result = .error (.notOneValue 2) ∧
      Parallel {} ("1 2" ++ "\u3000" ++ "+") "+" (evaluate {} ("1 2" ++ "\u3000" ++ "+"))
        ((evaluate {} "1 2").calculator.evaluate "+") := by
  have hchunks : Text.chunks "1 2" = ["1", "2"] := by decide +kernel
  have hrun : (executeAll (Token.all "1 2")).run {} = .ok () (.ofValues [1.0, 2.0]) := by
    rw [Token.all_eq_map, hchunks]
    rfl
  have hleaves : (evaluate {} "1 2").Leaves (.error (.notOneValue 2)) _ _ :=
    evaluate_of_ne hrun (show (Stack.ofValues [1.0, 2.0]).size ≠ 1 by decide)
  have hgap : IsGap "\u3000".toList := Text.isGap_of_all rfl
  obtain ⟨-, -, h⟩ := evaluate_append {} "1 2" "+" hgap (by decide)
  exact ⟨hgap, by decide, hleaves.result, h 2 hleaves.result⟩

end Calculator

end ReversePolish

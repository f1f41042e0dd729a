/-
  The operands that the Fibonacci operation and Pascal's triangle accept.

  * `Operation.fibonacciDomain`: the Fibonacci operation has a result for the integers up
    to `1476`, and two messages for the others, below and above `2^53`;
  * `Operation.pascalDomain`: Pascal's triangle has an entry for a row and a column up to
    the row, and one message for all other operands;
  * `Operation.indices_accepted`: indices are told by their exact values only.
-/
import ReversePolish.Proofs.Fibonacci
import ReversePolish.Proofs.Indices
import ReversePolish.Proofs.Transaction

namespace ReversePolish

namespace Operation

open Number (IsNatural index? index?_eq_some_iff index?_eq_none_iff)
open Stack (ofValues)

variable {x r c : Float} {n row column : ℕ}

/-! ## Failures -/

/-- An operation that fails leaves the stack as it is. -/
theorem left_of_failure {operation : Operation} {stack left : Stack} {failure : Failure}
    (h : operation.apply.run stack = .error failure left) : left = stack := by
  have htransacts := operation.transacts stack
  rcases Nat.lt_or_ge stack.size operation.arity with hlt | hle
  · rw [htransacts.lacking hlt] at h
    cases h
    rfl
  · obtain ⟨below, operands, hvalues, -, hsettles⟩ := htransacts.enough hle
    rw [h] at hsettles
    cases hsettles with
    | restored => rw [← hvalues, Stack.ofValues_values]

/-- The messages of the Fibonacci operation differ, whatever the operand is. -/
theorem tooLarge_ne_noIndex (operand : String) :
    s!"fibonacci index {operand} is too large" ≠
      s!"fibonacci requires a non-negative integer ({operand})" := by
  intro h
  have hchars := congrArg String.toList h
  simp only [String.toList_append, toString] at hchars
  simp at hchars

/-! ## The Fibonacci operation -/

theorem fibonacciAt_of_le (hx : index? x = some n) (hn : n ≤ Number.maxFibonacciIndex) :
    fibonacciAt x = .ok (Number.fibonacci n) := by
  rw [fibonacciAt, hx]
  exact if_pos hn

theorem fibonacciAt_of_lt (hx : index? x = some n) (hn : Number.maxFibonacciIndex < n) :
    fibonacciAt x =
      .error (.outsideDomain s!"fibonacci index {Number.text x} is too large") := by
  rw [fibonacciAt, hx]
  exact if_neg hn.not_ge

theorem fibonacciAt_of_none (hx : index? x = none) :
    fibonacciAt x = .error (.outsideDomain
      s!"fibonacci requires a non-negative integer ({Number.text x})") := by
  rw [fibonacciAt, hx]

/-- What the Fibonacci operation does with `x` on top of the stack. -/
structure FibonacciDomain (below : List Float) (x : Float) : Prop where
  ok_iff : (∃ left, fibonacci.apply.run (ofValues (below ++ [x])) = .ok () left) ↔
    ∃ n ≤ 1476, IsNatural x n
  ok_eq : ∀ n ≤ 1476, IsNatural x n →
    fibonacci.apply.run (ofValues (below ++ [x])) =
      .ok () (ofValues (below ++ [Number.fibonacci n])) ∧
    (Number.fibonacci n).isFinite = true
  tooLarge_iff : fibonacci.apply.run (ofValues (below ++ [x])) =
      .error (.outsideDomain s!"fibonacci index {Number.text x} is too large")
        (ofValues (below ++ [x])) ↔
    ∃ n, 1476 < n ∧ n ≤ 2 ^ 53 ∧ IsNatural x n
  noIndex_iff : fibonacci.apply.run (ofValues (below ++ [x])) =
      .error (.outsideDomain s!"fibonacci requires a non-negative integer ({Number.text x})")
        (ofValues (below ++ [x])) ↔
    ¬∃ n ≤ 2 ^ 53, IsNatural x n

theorem run_fibonacci (below : List Float) (x : Float) :
    fibonacci.apply.run (ofValues (below ++ [x])) =
      match fibonacciAt x with
      | .ok result => .ok () (ofValues (below ++ [result]))
      | .error failure => .error failure (ofValues (below ++ [x])) :=
  run_apply below rfl

theorem run_fibonacci_of_le (below : List Float) (hx : IsNatural x n) (hn : n ≤ 1476) :
    fibonacci.apply.run (ofValues (below ++ [x])) =
      .ok () (ofValues (below ++ [Number.fibonacci n])) := by
  have hindex := index?_eq_some_iff.2 ⟨hx, hn.trans (by decide)⟩
  rw [run_fibonacci, fibonacciAt_of_le hindex hn]

theorem run_fibonacci_of_lt (below : List Float) (hx : IsNatural x n) (hlt : 1476 < n)
    (hmax : n ≤ 2 ^ 53) :
    fibonacci.apply.run (ofValues (below ++ [x])) =
      .error (.outsideDomain s!"fibonacci index {Number.text x} is too large")
        (ofValues (below ++ [x])) := by
  have hindex := index?_eq_some_iff.2 ⟨hx, hmax⟩
  rw [run_fibonacci, fibonacciAt_of_lt hindex hlt]

theorem run_fibonacci_of_none (below : List Float) (hx : ¬∃ n ≤ 2 ^ 53, IsNatural x n) :
    fibonacci.apply.run (ofValues (below ++ [x])) =
      .error (.outsideDomain s!"fibonacci requires a non-negative integer ({Number.text x})")
        (ofValues (below ++ [x])) := by
  rw [run_fibonacci, fibonacciAt_of_none (index?_eq_none_iff.2 hx)]

/-- A natural number is in one of the three ranges, or out of range. -/
theorem exists_range (x : Float) :
    (∃ n ≤ 1476, IsNatural x n) ∨ (∃ n, 1476 < n ∧ n ≤ 2 ^ 53 ∧ IsNatural x n) ∨
    ¬∃ n ≤ 2 ^ 53, IsNatural x n := by
  by_cases hx : ∃ n ≤ 2 ^ 53, IsNatural x n
  · obtain ⟨n, hmax, hnatural⟩ := hx
    rcases Nat.lt_or_ge 1476 n with hlt | hle
    · exact Or.inr (Or.inl ⟨n, hlt, hmax, hnatural⟩)
    · exact Or.inl ⟨n, hle, hnatural⟩
  · exact Or.inr (Or.inr hx)

theorem fibonacciDomain (below : List Float) (x : Float) : FibonacciDomain below x := by
  -- the ranges cover all operands, and their outcomes differ
  have hne := tooLarge_ne_noIndex (Number.text x)
  refine ⟨⟨?_, ?_⟩, ?_, ⟨?_, ?_⟩, ⟨?_, run_fibonacci_of_none below⟩⟩
  · rintro ⟨left, h⟩
    rcases exists_range x with hsmall | ⟨n, hlt, hmax, hx⟩ | hnone
    · exact hsmall
    · rw [run_fibonacci_of_lt below hx hlt hmax] at h
      cases h
    · rw [run_fibonacci_of_none below hnone] at h
      cases h
  · rintro ⟨n, hn, hx⟩
    exact ⟨_, run_fibonacci_of_le below hx hn⟩
  · exact fun n hn hx =>
      ⟨run_fibonacci_of_le below hx hn, (Number.fibonacci_reaches hn).isFinite⟩
  · intro h
    rcases exists_range x with ⟨n, hn, hx⟩ | hlarge | hnone
    · rw [run_fibonacci_of_le below hx hn] at h
      cases h
    · exact hlarge
    · rw [run_fibonacci_of_none below hnone] at h
      injection h with hfailure
      injection hfailure with hmessage
      exact absurd hmessage.symm hne
  · rintro ⟨n, hlt, hmax, hx⟩
    exact run_fibonacci_of_lt below hx hlt hmax
  · intro h
    rcases exists_range x with ⟨n, hn, hx⟩ | ⟨n, hlt, hmax, hx⟩ | hnone
    · rw [run_fibonacci_of_le below hx hn] at h
      cases h
    · rw [run_fibonacci_of_lt below hx hlt hmax] at h
      injection h with hfailure
      injection hfailure with hmessage
      exact absurd hmessage hne
    · exact hnone

/-! ## Pascal's triangle -/

/-- The operands are a row and a column of the triangle. -/
def InTriangle (r c : Float) : Prop :=
  ∃ row ≤ 2 ^ 53, ∃ column ≤ row, IsNatural r row ∧ IsNatural c column

theorem pascalAt_of_le (hr : index? r = some row) (hc : index? c = some column)
    (hle : column ≤ row) : pascalAt r c = .ok (Number.binomial row column) := by
  rw [pascalAt, hr, hc]
  exact if_pos hle

theorem pascalAt_of_not (h : ¬InTriangle r c) : pascalAt r c = .error (pascalAt.outside r c) := by
  rw [pascalAt]
  rcases hr : index? r with _ | row
  · rfl
  rcases hc : index? c with _ | column
  · rfl
  · obtain ⟨hrow, hmax⟩ := index?_eq_some_iff.1 hr
    obtain ⟨hcolumn, -⟩ := index?_eq_some_iff.1 hc
    exact if_neg fun hle => h ⟨row, hmax, column, hle, hrow, hcolumn⟩

/-- What Pascal's triangle does with a row `r` and a column `c` on top of the stack. -/
structure PascalDomain (below : List Float) (r c : Float) : Prop where
  ok_iff : (∃ left, pascal.apply.run (ofValues (below ++ [r, c])) = .ok () left) ↔
    InTriangle r c
  ok_eq : ∀ row ≤ 2 ^ 53, ∀ column ≤ row, IsNatural r row → IsNatural c column →
    pascal.apply.run (ofValues (below ++ [r, c])) =
      .ok () (ofValues (below ++ [Number.binomial row column]))
  outside_iff : pascal.apply.run (ofValues (below ++ [r, c])) =
      .error (.outsideDomain
        s!"invalid pascal's triangle position (row {Number.text r}, column {Number.text c})")
        (ofValues (below ++ [r, c])) ↔
    ¬InTriangle r c

theorem run_pascal (below : List Float) (r c : Float) :
    pascal.apply.run (ofValues (below ++ [r, c])) =
      match pascalAt r c with
      | .ok result => .ok () (ofValues (below ++ [result]))
      | .error failure => .error failure (ofValues (below ++ [r, c])) :=
  run_apply below rfl

/-- A row and a column of the triangle are replaced by the entry. -/
theorem run_pascal_of_le (below : List Float) (hr : index? r = some row)
    (hc : index? c = some column) (hle : column ≤ row) :
    pascal.apply.run (ofValues (below ++ [r, c])) =
      .ok () (ofValues (below ++ [Number.binomial row column])) := by
  rw [run_pascal, pascalAt_of_le hr hc hle]

theorem run_pascal_of_not (below : List Float) (h : ¬InTriangle r c) :
    pascal.apply.run (ofValues (below ++ [r, c])) =
      .error (pascalAt.outside r c) (ofValues (below ++ [r, c])) := by
  rw [run_pascal, pascalAt_of_not h]

theorem pascalDomain (below : List Float) (r c : Float) : PascalDomain below r c := by
  have hok : ∀ row ≤ 2 ^ 53, ∀ column ≤ row, IsNatural r row → IsNatural c column →
      pascal.apply.run (ofValues (below ++ [r, c])) =
        .ok () (ofValues (below ++ [Number.binomial row column])) := by
    intro row hmax column hle hrow hcolumn
    exact run_pascal_of_le below (index?_eq_some_iff.2 ⟨hrow, hmax⟩)
      (index?_eq_some_iff.2 ⟨hcolumn, hle.trans hmax⟩) hle
  refine ⟨⟨?_, ?_⟩, hok, ⟨?_, run_pascal_of_not below⟩⟩
  · rintro ⟨left, h⟩
    by_contra hnot
    rw [run_pascal_of_not below hnot] at h
    cases h
  · rintro ⟨row, hmax, column, hle, hrow, hcolumn⟩
    exact ⟨_, hok row hmax column hle hrow hcolumn⟩
  · rintro h ⟨row, hmax, column, hle, hrow, hcolumn⟩
    rw [hok row hmax column hle hrow hcolumn] at h
    cases h

/-- **Indices** are the floats that are integers from `0` to `2^53`, with either zero.
    The Fibonacci operation and Pascal's triangle have a result for operands that are such
    integers, in their ranges; otherwise they fail with their messages, and leave the
    stack as it is. -/
theorem indices_accepted :
    (∀ x n, index? x = some n ↔ x.isFinite = true ∧ Number.toRat x = (n : ℕ) ∧ n ≤ 2 ^ 53) ∧
    index? (-0.0) = some 0 ∧
    (∀ below x, FibonacciDomain below x) ∧
    (∀ below r c, PascalDomain below r c) ∧
    (∀ operation ∈ [fibonacci, pascal], ∀ stack failure left,
      operation.apply.run stack = .error failure left → left = stack) := by
  refine ⟨fun x n => ?_, ?_, fibonacciDomain, pascalDomain,
    fun operation _ stack failure left => left_of_failure⟩
  · rw [index?_eq_some_iff, ← and_assoc]
    exact and_congr_left' ⟨fun h => ⟨h.isFinite, h.toRat_eq⟩, fun h => ⟨h.1, h.2⟩⟩
  · have hzero : IsNatural (-0.0) 0 := ⟨rfl, Nat.cast_zero.symm⟩
    exact index?_eq_some_iff.2 ⟨hzero, Nat.zero_le _⟩

end Operation

end ReversePolish

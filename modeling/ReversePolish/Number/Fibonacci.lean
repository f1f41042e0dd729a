/-
  Fibonacci numbers in float arithmetic.

  * `fibonacci_zero`, `fibonacci_one` and `fibonacci_add_two`: the recurrence,
    whose sums are rounded.
-/

namespace ReversePolish.Number

/-- The member `n` places after the first of two consecutive members. -/
def fibonacciFrom (first second : Float) : (n : Nat) → Float
  | 0 => first
  | n + 1 => fibonacciFrom second (first + second) n

/-- The `n`-th Fibonacci number, summed up in float arithmetic. -/
def fibonacci (n : Nat) : Float :=
  fibonacciFrom 0.0 1.0 n

/-- The last Fibonacci number within the range of floats. -/
def maxFibonacciIndex : Nat := 1476

theorem fibonacciFrom_add_two (first second : Float) (n : Nat) :
    fibonacciFrom first second (n + 2) =
      fibonacciFrom first second n + fibonacciFrom first second (n + 1) := by
  induction n generalizing first second with
  | zero => rfl
  | succ n ih => exact ih second (first + second)

theorem fibonacci_zero : fibonacci 0 = 0.0 := rfl

theorem fibonacci_one : fibonacci 1 = 1.0 := rfl

theorem fibonacci_add_two (n : Nat) : fibonacci (n + 2) = fibonacci n + fibonacci (n + 1) :=
  fibonacciFrom_add_two 0.0 1.0 n

end ReversePolish.Number

/-
  The result of an operation, or the reason why there is none.

  Operands are listed in the order in which they were pushed.  Angles are in
  degrees.
-/
import ReversePolish.Failure
import ReversePolish.Number.Binomial
import ReversePolish.Number.Fibonacci
import ReversePolish.Number.Index
import ReversePolish.Number.Remainder
import ReversePolish.Number.Text
import ReversePolish.Operation.Basic

namespace ReversePolish

namespace Operation

/-! ## Partial operations -/

/-- The quotient; there is none for either zero as divisor. -/
def quotient (dividend divisor : Float) : Except Failure Float :=
  if divisor == 0.0 then .error .zeroDivisor else .ok (dividend / divisor)

/-- The square root; negative numbers have none, the negative zero has. -/
def root (x : Float) : Except Failure Float :=
  if x < 0.0 then
    .error (.outsideDomain s!"cannot take the square root of a negative number ({Number.text x})")
  else .ok x.sqrt

/-- An angle in radians. -/
def radians (degrees : Float) : Float :=
  degrees * (3.141592653589793 / 180.0)

/-- The tangent; odd multiples of the right angle have none. -/
def tangentOf (degrees : Float) : Except Failure Float :=
  if Number.euclideanRemainder degrees 180.0 == 90.0 then
    .error (.outsideDomain s!"tangent is undefined at {Number.text degrees} degrees")
  else .ok (radians degrees).tan

/-- The Fibonacci number of an index within the range of floats. -/
def fibonacciAt (x : Float) : Except Failure Float :=
  match Number.index? x with
  | some n =>
    if n ≤ Number.maxFibonacciIndex then .ok (Number.fibonacci n)
    else .error (.outsideDomain s!"fibonacci index {Number.text x} is too large")
  | none => .error (.outsideDomain s!"fibonacci requires a non-negative integer ({Number.text x})")

/-- The entry of Pascal's triangle at a row and a column, both counted from
    `0`. -/
def pascalAt (row column : Float) : Except Failure Float :=
  match Number.index? row, Number.index? column with
  | some n, some k => if k ≤ n then .ok (Number.binomial n k) else .error outside
  | _, _ => .error outside
where
  /-- The position is not in the triangle. -/
  outside : Failure :=
    .outsideDomain
      s!"invalid pascal's triangle position (row {Number.text row}, column {Number.text column})"

/-! ## All operations -/

/-- The result of the operation.  Operands of another number than the arity
    count as too few. -/
def compute : Operation → (operands : List Float) → Except Failure Float
  | add, [left, right] => .ok (left + right)
  | subtract, [left, right] => .ok (left - right)
  | multiply, [left, right] => .ok (left * right)
  | divide, [left, right] => quotient left right
  | squareRoot, [x] => root x
  | power, [base, exponent] => .ok (base.pow exponent)
  | sine, [degrees] => .ok (radians degrees).sin
  | cosine, [degrees] => .ok (radians degrees).cos
  | tangent, [degrees] => tangentOf degrees
  | fibonacci, [x] => fibonacciAt x
  | pascal, [row, column] => pascalAt row column
  | _, _ => .error .underflow

end Operation

end ReversePolish

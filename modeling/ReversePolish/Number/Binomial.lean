/-
  Binomial coefficients in float arithmetic, as the running product

      1 · (n - 0) / 1 · (n - 1) / 2 · … · (n - k + 1) / k

  which stays an integer as long as nothing is rounded.
-/
import ReversePolish.Number.Index

namespace ReversePolish.Number

/-- The running product after `left` more factors, of which the first is
    `(row - i + 1) / i`, and the number of those that are multiplied.  An infinite
    product is not multiplied further. -/
def countedFrom (row : Nat) (product : Float) (i : Nat) : (left : Nat) → Float × Nat
  | 0 => (product, 0)
  | left + 1 =>
    let next := product * ofIndex (row - i + 1) / ofIndex i
    if next.isInf then (next, 1) else
      let (result, rounds) := countedFrom row next (i + 1) left
      (result, rounds + 1)

/-- The running product, without the number of its factors. -/
def binomialFrom (row : Nat) (product : Float) (i left : Nat) : Float :=
  (countedFrom row product i left).1

/-- The number of ways to choose `column` things out of `row`, by as few
    factors as the symmetry of the row allows. -/
def binomial (row column : Nat) : Float :=
  binomialFrom row 1.0 1 (min column (row - column))

end ReversePolish.Number

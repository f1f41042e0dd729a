/-
  The ways a calculation fails, and what is said of each.
-/

namespace ReversePolish

/-- The cause of a failed calculation. -/
inductive Failure where
  /-- Fewer values on the stack than are needed. -/
  | underflow
  | zeroDivisor
  /-- An operand outside the domain of its operation, with the reason in words. -/
  | outsideDomain (reason : String)
  /-- A word that names no operation. -/
  | unknownWord (word : String)
  /-- An expression that leaves a number of values other than one. -/
  | notOneValue (left : Nat)
  deriving DecidableEq, Repr

/-- The failure in words. -/
def Failure.message : Failure → String
  | .underflow => "stack underflow"
  | .zeroDivisor => "division by zero"
  | .outsideDomain reason => reason
  | .unknownWord word => s!"'{word}' is neither a number nor an operation"
  | .notOneValue left => s!"expression left {left} values on the stack"

end ReversePolish

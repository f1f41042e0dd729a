/-
  Floats as indices: the integers from `0` to `2^53`, the range in which
  every integer is a float.
-/

namespace ReversePolish.Number

/-- The largest index, `2^53`. -/
def maxIndex : Float := 9007199254740992.0

/-- The index that a float is.  The float has to equal its own integer part;
    the negative zero is the index `0`. -/
def index? (x : Float) : Option Nat :=
  if x.isFinite && 0.0 ≤ x && x ≤ maxIndex && x.toUInt64.toFloat == x then
    some x.toUInt64.toNat
  else none

/-- The float of an index. -/
def ofIndex (n : Nat) : Float :=
  n.toUInt64.toFloat

end ReversePolish.Number

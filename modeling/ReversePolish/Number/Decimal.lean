/-
  Decimals: the numbers `c · 10^e`.

  * `Decimal.toFloat` is the float nearest to a decimal;
  * `Decimal.digits` writes a decimal positionally, without an exponent;
  * `Decimal.shorten` drops as many of the last digits as a test allows;
  * `shorten_accepted`: what is left passes the test if the decimal does.
-/

namespace ReversePolish.Number

/-- The decimal `coefficient · 10^exponent`. -/
structure Decimal where
  coefficient : Nat
  exponent : Int
  deriving DecidableEq

namespace Decimal

/-! ## Floats -/

/-- The float nearest to a decimal, of two equally near ones the one with the
    even mantissa; infinity where the nearest is out of range. -/
def toFloat (d : Decimal) : Float :=
  .ofModel (.ofScientific d.coefficient d.exponent)

/-- The decimal `mantissa · 2^exponent`, exactly. -/
def ofBinary (mantissa : Nat) : (exponent : Int) → Decimal
  | .ofNat n => ⟨mantissa * Nat.pow 2 n, 0⟩
  | .negSucc n => ⟨mantissa * Nat.pow 5 (n + 1), .negSucc n⟩

/-! ## Text -/

/-- The decimal written positionally.  A fraction has a digit before its
    point. -/
def digits (d : Decimal) : List Char :=
  let written := Nat.toDigits 10 d.coefficient
  match d.exponent with
  | .ofNat zeros => written ++ List.replicate zeros '0'
  | .negSucc n =>
    let padded := List.replicate (n + 2 - written.length) '0' ++ written
    let whole := padded.length - (n + 1)
    padded.take whole ++ '.' :: padded.drop whole

/-! ## Shortening -/

/-- The two decimals around `d` that have no digits in its last `dropped`
    places, the nearer one first, and the upper one first if `d` is halfway
    between them. -/
def neighbours (d : Decimal) (dropped : Nat) : Decimal × Decimal :=
  let unit := Nat.pow 10 dropped
  let below : Decimal := ⟨d.coefficient / unit, d.exponent + dropped⟩
  let above : Decimal := ⟨d.coefficient / unit + 1, d.exponent + dropped⟩
  if unit ≤ 2 * (d.coefficient % unit) then (above, below) else (below, above)

/-- The decimal without as many of its last digits as the test `accepts`
    allows, at most `dropped`: the first neighbour to pass the test, or the
    decimal itself. -/
def shorten (d : Decimal) (accepts : Decimal → Bool) : (dropped : Nat) → Decimal
  | 0 => d
  | dropped + 1 =>
    let (near, far) := d.neighbours (dropped + 1)
    if accepts near then near
    else if accepts far then far
    else shorten d accepts dropped

theorem shorten_accepted {d : Decimal} {accepts : Decimal → Bool} (h : accepts d = true)
    (dropped : Nat) : accepts (d.shorten accepts dropped) = true := by
  induction dropped with
  | zero => exact h
  | succ dropped ih =>
    simp only [shorten]
    split
    · assumption
    · split
      · assumption
      · exact ih

end Decimal

end ReversePolish.Number

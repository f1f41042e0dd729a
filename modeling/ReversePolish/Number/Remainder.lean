/-
  Remainders of floats.

  * `remainder x y` is `x - n · y` for the integer `n` that rounds `x / y`
    toward zero; it is exact, and has the sign of `x`;
  * `euclideanRemainder x y` is the remainder that is not negative, up to one
    rounding.
-/

namespace ReversePolish.Number

open Float.Model (UnpackedFloat Format)
open Float.Model.UnpackedFloat (Sign)

/-- The remainder of the integers `m₁ · 2^(e₁ - e)` and `m₂ · 2^(e₂ - e)`,
    with the smaller of the exponents for `e`, and `e` itself. -/
def alignedRemainder (m₁ : Nat) (e₁ : Int) (m₂ : Nat) (e₂ : Int) : Nat × Int :=
  let e := min e₁ e₂
  ((m₁ * Nat.pow 2 (e₁ - e).toNat) % (m₂ * Nat.pow 2 (e₂ - e).toNat), e)

/-- The remainder of unpacked floats.  It is not a number for a dividend that
    is not finite and for a divisor that is zero; an infinite divisor leaves
    the dividend. -/
def unpackedRemainder : UnpackedFloat → UnpackedFloat → UnpackedFloat
  | .notANumber, _ | _, .notANumber | .infinity _, _ | _, .zero _ => .notANumber
  | .zero sign, _ => .zero sign
  | .finite sign m e h, .infinity _ => .finite sign m e h
  | .finite sign m₁ e₁ _, .finite _ m₂ e₂ _ =>
    match alignedRemainder m₁ e₁ m₂ e₂ with
    | (0, _) => .zero sign
    | (m, e) => .round .binary64 sign m e

/-- The exact remainder of the division of `x` by `y`, with the sign of `x`. -/
def remainder (x y : Float) : Float :=
  .ofModel (.pack (unpackedRemainder x.toModel.unpack y.toModel.unpack))

/-- The remainder that is not negative: a negative one is moved up by the
    magnitude of the divisor. -/
def euclideanRemainder (x y : Float) : Float :=
  let r := remainder x y
  if r < 0.0 then r + y.abs else r

end ReversePolish.Number

/-
  The text of a float: the fewest decimal digits that read back as the float,
  written positionally.

  * `shortest` is the decimal with these digits; where several with equally
    few digits read back, the nearest to the float;
  * `text` adds the sign, and has the words of the floats that are not finite.
-/
import ReversePolish.Number.Decimal

namespace ReversePolish.Number

open Float.Model (UnpackedFloat)
open Float.Model.UnpackedFloat (Sign)

/-- The shortest decimal that reads back as the positive float
    `mantissa · 2^exponent`.  Dropping all of the digits is tried first: it
    leaves the next power of ten. -/
def shortest (mantissa : Nat) (exponent : Int) : Decimal :=
  let exact := Decimal.ofBinary mantissa exponent
  exact.shorten (fun d => d.toFloat.toBits == exact.toFloat.toBits)
    (Nat.toDigits 10 exact.coefficient).length

/-- The sign as it is written: a positive number has none. -/
def signText : Sign → String
  | .negative => "-"
  | .positive => ""

/-- The float in words or digits.  A NaN has no sign, a zero has one. -/
def text (x : Float) : String :=
  match x.toModel.unpack with
  | .notANumber => "NaN"
  | .infinity sign => signText sign ++ "inf"
  | .zero sign => signText sign ++ "0"
  | .finite sign mantissa exponent _ =>
    signText sign ++ .ofList (shortest mantissa exponent).digits

end ReversePolish.Number

/-
  Number literals: a sign or none, digits with or without a point, and an
  exponent or none.

      literal  ::= sign? mantissa exponent?
      mantissa ::= digit+ ('.' digit*)? | '.' digit+
      exponent ::= ('e' | 'E') sign? digit+
      sign     ::= '+' | '-'

  The digits are those of ASCII.

  * `Literal.read?` reads a literal, and nothing else;
  * `Literal.toFloat` is the float nearest to it.
-/
import ReversePolish.Number.Decimal

namespace ReversePolish.Number

/-- A number literal. -/
structure Literal where
  negative : Bool
  magnitude : Decimal
  deriving DecidableEq

namespace Literal

/-- The sign that the characters start with, and the characters after it. -/
def readSign : List Char → Bool × List Char
  | '-' :: cs => (true, cs)
  | '+' :: cs => (false, cs)
  | cs => (false, cs)

/-- The value of a sequence of digits. -/
def digitsValue (cs : List Char) : Nat :=
  Nat.ofDigitChars 10 cs 0

/-- The fraction that the characters start with, without its point, and the
    characters after it. -/
def readFraction : List Char → List Char × List Char
  | '.' :: cs => (cs.takeWhile Char.isDigit, cs.dropWhile Char.isDigit)
  | cs => ([], cs)

/-- The exponent that the characters are, `0` for none. -/
def readExponent? : List Char → Option Int
  | [] => some 0
  | mark :: cs =>
    let (negative, digits) := readSign cs
    if (mark = 'e' ∨ mark = 'E') ∧ digits ≠ [] ∧ digits.all Char.isDigit then
      some (if negative then -(digitsValue digits : Int) else digitsValue digits)
    else none

/-- The literal that the characters are. -/
def read? (cs : List Char) : Option Literal :=
  let (negative, unsigned) := readSign cs
  let whole := unsigned.takeWhile Char.isDigit
  let (fraction, rest) := readFraction (unsigned.dropWhile Char.isDigit)
  if whole ++ fraction = [] then none
  else
    (readExponent? rest).map fun exponent =>
      ⟨negative, ⟨digitsValue (whole ++ fraction), exponent - fraction.length⟩⟩

/-- The float nearest to a literal; a negative literal that is zero, or that
    is nearest to zero, gives the negative zero. -/
def toFloat (literal : Literal) : Float :=
  if literal.negative then -literal.magnitude.toFloat else literal.magnitude.toFloat

end Literal

end ReversePolish.Number

/-
  Tokens of an expression: numbers and words.
-/
import ReversePolish.Number.Literal

namespace ReversePolish

/-- A token. -/
inductive Token where
  | number (value : Float)
  | word (text : String)
  deriving DecidableEq

/-- The token that a chunk of text is.  A literal within the range of floats
    is a number, anything else is a word: literals out of range, and names of
    infinities, too. -/
def Token.ofChunk (chunk : String) : Token :=
  match Number.Literal.read? chunk.toList with
  | some literal => if literal.toFloat.isFinite then .number literal.toFloat else .word chunk
  | none => .word chunk

end ReversePolish

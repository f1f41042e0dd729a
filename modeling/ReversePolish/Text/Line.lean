/-
  Lines of an input that arrives as bytes.

  A line ends at a line feed, and one carriage return before the line feed
  belongs to that end.  The last line may lack its line feed; a carriage
  return there belongs to the line.

  * `Line` is the text of a line, or the mark of a line that is not UTF-8;
  * `Line.all` are the lines of an input.
-/

namespace ReversePolish.Text

/-- A line of the input, without its end. -/
inductive Line where
  | text (content : String)
  /-- The bytes of the line are not UTF-8. -/
  | undecodable
  deriving DecidableEq

namespace Line

/-- The byte that ends a line. -/
def feed : UInt8 := 0x0A

/-- The line with these bytes. -/
def ofBytes (bytes : List UInt8) : Line :=
  match String.fromUTF8? ⟨bytes.toArray⟩ with
  | some content => .text content
  | none => .undecodable

/-- The line whose bytes `pending`, the last one first, a line feed has just
    ended. -/
def ended : (pending : List UInt8) → Line
  | 0x0D :: earlier => ofBytes earlier.reverse
  | pending => ofBytes pending.reverse

/-- The line whose bytes `pending`, the last one first, the end of the input
    has cut off; none if there are no such bytes. -/
def unended (pending : List UInt8) : Option Line :=
  if pending.isEmpty then none else some (ofBytes pending.reverse)

/-- The lines of an input, of whose first line the bytes `pending`, the last
    one first, are read already. -/
def allFrom (pending : List UInt8) : List UInt8 → List Line
  | [] => (unended pending).toList
  | byte :: rest =>
    if byte = feed then ended pending :: allFrom [] rest else allFrom (byte :: pending) rest

/-- The lines of an input. -/
def all (bytes : List UInt8) : List Line :=
  allFrom [] bytes

end Line

end ReversePolish.Text

/-
  The tape of a calculator: its successful evaluations, oldest first.  Users
  know it as the history.

  * `Tape.lines` numbers the entries from 1.
-/
import ReversePolish.Number.Text

namespace ReversePolish

/-- An expression and its value. -/
structure Tape.Entry where
  expression : String
  result : Float
  deriving DecidableEq

/-- The entry in words. -/
def Tape.Entry.text (entry : Entry) : String :=
  s!"{entry.expression} = {Number.text entry.result}"

/-- A tape. -/
structure Tape where
  /-- The entries, oldest first. -/
  entries : List Tape.Entry := []
  deriving DecidableEq, Inhabited

namespace Tape

def size (tape : Tape) : Nat :=
  tape.entries.length

def isEmpty (tape : Tape) : Bool :=
  tape.entries.isEmpty

/-- The tape with one more entry. -/
def push (tape : Tape) (entry : Entry) : Tape :=
  ⟨tape.entries ++ [entry]⟩

/-- The line of the entry at a position, counted from `0`. -/
def line (entry : Entry) (position : Nat) : String :=
  s!"{position + 1}. {entry.text}"

/-- The lines of the tape. -/
def lines (tape : Tape) : List String :=
  tape.entries.zipIdx.map fun (entry, position) => line entry position

end Tape

end ReversePolish

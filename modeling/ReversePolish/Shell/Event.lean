/-
  Events: what a run of the program emits, in order.

  * `stdout` and `stderr` are the texts that reach the two outputs; only log
    records are subject to the filter.
-/
import ReversePolish.Log.Filter

namespace ReversePolish.Shell

/-- Something that the program emits. -/
inductive Event where
  /-- A text for the standard output. -/
  | output (text : String)
  /-- A text for the standard error output. -/
  | complaint (text : String)
  | log (record : Log.Record)
  deriving DecidableEq

namespace Event

/-- The text of an event on the standard output. -/
def outputText : Event → String
  | output text => text
  | complaint _ | log _ => ""

/-- The text of an event on the standard error output. -/
def errorText (filter : Log.Filter) : Event → String
  | output _ => ""
  | complaint text => text
  | log record => if filter.admits record then record.line else ""

end Event

/-- What the events write to the standard output. -/
def stdout (events : List Event) : String :=
  String.join (events.map Event.outputText)

/-- What the events write to the standard error output. -/
def stderr (filter : Log.Filter) (events : List Event) : String :=
  String.join (events.map (Event.errorText filter))

end ReversePolish.Shell

/-
  Log records: what a calculation reports about itself.

  * `Record` are the events that are logged;
  * `Record.level` and `Record.target` are what filters look at;
  * `Record.line` is the line of a log.
-/
import ReversePolish.Failure
import ReversePolish.Number.Text

namespace ReversePolish.Log

/-- The importance of a record. -/
inductive Level where
  | error
  | warn
  | info
  | debug
  | trace
  deriving DecidableEq, Repr

namespace Level

/-- The levels are ordered from the most important one on. -/
def rank : Level → Nat
  | error => 0
  | warn => 1
  | info => 2
  | debug => 3
  | trace => 4

def name : Level → String
  | error => "error"
  | warn => "warn"
  | info => "info"
  | debug => "debug"
  | trace => "trace"

/-- The name in a column of five characters. -/
def heading : Level → String
  | error => "ERROR"
  | warn => "WARN "
  | info => "INFO "
  | debug => "DEBUG"
  | trace => "TRACE"

end Level

/-- A record of the log. -/
inductive Record where
  /-- A chunk is read ahead. -/
  | scanned (chunk : String)
  /-- A word is looked up, while the stack has a number of values. -/
  | applying (word : String) (size : Nat)
  | evaluated (expression : String) (value : Float)
  | failed (expression : String) (failure : Failure)
  deriving DecidableEq

namespace Record

def level : Record → Level
  | scanned _ => .trace
  | applying _ _ | evaluated _ _ => .debug
  | failed _ _ => .warn

/-- The part of the program that a record comes from. -/
def target : Record → String
  | scanned _ => "rpn_calc::scanning"
  | applying _ _ | evaluated _ _ | failed _ _ => "rpn_calc::evaluating"

/-- The record in words. -/
def message : Record → String
  | scanned chunk => s!"scanned '{chunk}'"
  | applying word size => s!"dispatching '{word}' with {size} values on the stack"
  | evaluated expression value => s!"'{expression}' evaluated to {Number.text value}"
  | failed expression failure => s!"expression '{expression}' failed: {failure.message}"

/-- The line of the log. -/
def line (record : Record) : String :=
  s!"[{record.level.heading} {record.target}] {record.message}\n"

end Record

end ReversePolish.Log

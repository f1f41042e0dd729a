/-
  The program as a function.

  * `Program.start` is what the program does before it reads input: all, if
    the arguments hold expressions, or else the welcome of a dialogue;
  * `Program.filter` is the log filter;
  * `Program.run` is the whole program.
-/
import ReversePolish.Program.Arguments
import ReversePolish.Shell.Basic

namespace ReversePolish.Program

open Shell (Event Run)

/-- The variable of the environment that holds the log filter. -/
def filterVariable : String := "RUST_LOG"

/-- The text of the log filter: the variable of the environment, the option of
    the command line, or warnings. -/
def filterText (setting? : Option String) (logLevel : Option String) : String :=
  (setting? <|> logLevel).getD "warn"

/-- The log filter. -/
def filter (setting? : Option String) (logLevel : Option String) : Log.Filter :=
  .ofText (filterText setting? logLevel)

/-- The beginning of a run. -/
inductive Start where
  /-- There is nothing to ask for. -/
  | done (run : Run)
  /-- A dialogue, after these events. -/
  | dialogue (events : List Event) (shell : Shell)

/-- The log level that the arguments ask for. -/
def logLevel? : (request : Except UsageError Request) → Option String
  | .ok (.calculate arguments) => arguments.logLevel
  | _ => none

/-- The beginning of a run with what the arguments ask for. -/
def start : (request : Except UsageError Request) → Start
  | .error fault => .done ⟨2, [.complaint s!"error: {fault.message}\n"]⟩
  | .ok .showVersion => .done ⟨0, [.output "rpn_calc 0.1.0\n"]⟩
  | .ok (.calculate arguments) =>
    match arguments.expressions with
    | [] => .dialogue [.output Shell.welcome] {}
    | expressions => .done ⟨0, (Shell.showBatch {} expressions).2⟩

/-- All events of a run on an input. -/
def events (arguments : List String) (input : List UInt8) : Run :=
  match start (Arguments.read arguments) with
  | .done run => run
  | .dialogue events shell => (shell.run (Text.Line.all input)).after events

/-- What a run leaves to be seen. -/
structure Result where
  exitCode : Nat
  stdout : String
  stderr : String
  deriving DecidableEq

/-- The program, on its arguments, the variable of the environment for the log
    filter, and its standard input. -/
def run (arguments : List String) (setting? : Option String) (input : List UInt8) : Result :=
  let run := events arguments input
  let filter := filter setting? (logLevel? (Arguments.read arguments))
  ⟨run.exitCode, Shell.stdout run.events, Shell.stderr filter run.events⟩

end ReversePolish.Program

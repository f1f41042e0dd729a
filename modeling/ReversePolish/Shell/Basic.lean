/-
  The shell, a dialogue with a calculator, line by line.

  Lines are commands, or the expressions of a batch that is being collected.

  * `Shell.prompt` asks for a line, `Shell.reply` answers one, `Shell.finish`
    answers the end of the input;
  * `Shell.run` is the whole dialogue on given lines.
-/
import ReversePolish.Calculator.Evaluate
import ReversePolish.Shell.Command
import ReversePolish.Shell.Event
import ReversePolish.Shell.Message
import ReversePolish.Text.Line

namespace ReversePolish

open Shell (Command Event)
open Text (Line)

/-- What the next line is for. -/
inductive Shell.Mode where
  | command
  /-- An expression of a batch, after the ones collected so far. -/
  | collecting (expressions : List String)
  deriving DecidableEq

/-- A shell between two lines. -/
structure Shell where
  calculator : Calculator := {}
  mode : Shell.Mode := .command
  deriving DecidableEq

namespace Shell

/-! ## Batches -/

/-- The line on a result of a batch, counted from `0`. -/
def resultLine (position : Nat) (expression : String) (result : Float) : String :=
  let shown := if result.isNaN then "Error" else Number.text result
  s!"{position + 1}. {expression} = {shown}\n"

/-- The lines on the results of a batch. -/
def resultLines (expressions : List String) (results : List Float) : List String :=
  (expressions.zip results).zipIdx.map
    fun ((expression, result), position) => resultLine position expression result

/-- Evaluate a batch and show its results. -/
def showBatch (calculator : Calculator) (expressions : List String) : Calculator × List Event :=
  let batch := calculator.evaluateAll expressions
  (batch.calculator,
    .output "Calculation Results:\n" ::
      batch.log.map .log ++ (resultLines expressions batch.results).map .output)

/-- Evaluate a collected batch, unless it is empty. -/
def closeBatch (calculator : Calculator) : (expressions : List String) → Calculator × List Event
  | [] => (calculator, [])
  | expressions =>
    let (calculator, events) := showBatch calculator expressions
    (calculator, .output "\n" :: events)

/-! ## Commands -/

/-- The tape in words. -/
def tapeText (calculator : Calculator) : String :=
  if calculator.tape.isEmpty then "History is empty\n"
  else unlines ("Calculation History:" :: calculator.tape.lines)

/-- Evaluate an expression and show its value or its failure. -/
def showEvaluation (calculator : Calculator) (expression : String) : Calculator × List Event :=
  let outcome := calculator.evaluate expression
  let shown : Event :=
    match outcome.result with
    | .ok value => .output s!"Result: {Number.text value}\n"
    | .error failure => .complaint s!"Error: {failure.message}\n"
  (outcome.calculator, outcome.log.map .log ++ [shown])

/-- The answer to a line: what is emitted, and the shell afterwards, if it
    goes on. -/
structure Reply where
  events : List Event
  next : Option Shell

/-- The answer to a command. -/
def obey (calculator : Calculator) : Command → Reply
  | .quit => ⟨[.output goodbye], none⟩
  | .clear => ⟨[.output "Stack cleared\n"], some { calculator := calculator.cleared }⟩
  | .showStack => ⟨[.output (calculator.stackText ++ "\n")], some { calculator }⟩
  | .showTape => ⟨[.output (tapeText calculator)], some { calculator }⟩
  | .forget =>
    ⟨[.output "History records cleared\n"], some { calculator := calculator.forgetting }⟩
  | .batch => ⟨[.output batchHeading], some { calculator, mode := .collecting [] }⟩
  | .help => ⟨[.output help], some { calculator }⟩
  | .nothing => ⟨[], some { calculator }⟩
  | .evaluate expression =>
    let (calculator, events) := showEvaluation calculator expression
    ⟨events, some { calculator }⟩

/-! ## The dialogue -/

/-- What asks for the next line. -/
def prompt (shell : Shell) : Event :=
  match shell.mode with
  | .command => .output "\n> "
  | .collecting expressions => .output s!"Expression {expressions.length + 1}: "

/-- The answer to a line.  An empty line, one without even blanks, closes a
    batch. -/
def reply (shell : Shell) (line : String) : Reply :=
  match shell.mode with
  | .command => obey shell.calculator (.ofLine line)
  | .collecting expressions =>
    if line = "" then
      let (calculator, events) := closeBatch shell.calculator expressions
      ⟨events, some { calculator }⟩
    else ⟨[], some { shell with mode := .collecting (expressions ++ [line]) }⟩

/-- What follows a prompt at the end of the input.  A batch is closed, and the
    main prompt shown once more. -/
def finish (shell : Shell) : List Event :=
  match shell.mode with
  | .command => [.output goodbye]
  | .collecting expressions =>
    let (calculator, events) := closeBatch shell.calculator expressions
    events ++ [prompt { calculator }, .output goodbye]

/-- A run of the program. -/
structure Run where
  exitCode : Nat
  events : List Event

/-- The run with these events before its own. -/
def Run.after (events : List Event) (run : Run) : Run :=
  { run with events := events ++ run.events }

/-- The dialogue on these lines.  A line that cannot be decoded ends it. -/
def run (shell : Shell) : List Line → Run
  | [] => ⟨0, shell.prompt :: shell.finish⟩
  | .undecodable :: _ => ⟨1, [shell.prompt, .complaint undecodableInput]⟩
  | .text line :: lines =>
    let reply := shell.reply line
    match reply.next with
    | none => ⟨0, shell.prompt :: reply.events⟩
    | some next => (next.run lines).after (shell.prompt :: reply.events)

end Shell

end ReversePolish

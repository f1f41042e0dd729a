/-
  The command line program.  It reads the standard input line by line and
  shows each event at once.
-/
import ReversePolish.Program.Run

namespace ReversePolish.Program

/-- Write an event to the outputs. -/
def emit (filter : Log.Filter) (event : Shell.Event) : IO Unit := do
  let stdout ← IO.getStdout
  stdout.putStr event.outputText
  stdout.flush
  (← IO.getStderr).putStr (event.errorText filter)

/-- The next line of the standard input, of which the bytes `pending`, the
    last one first, are read already; none at the end of the input. -/
partial def readLine (pending : List UInt8) : IO (Option Text.Line) := do
  let bytes ← (← IO.getStdin).read 1
  match bytes.toList with
  | byte :: _ =>
    if byte = Text.Line.feed then return some (Text.Line.ended pending)
    else readLine (byte :: pending)
  | [] => return Text.Line.unended pending

/-- The dialogue on the standard input. -/
partial def converse (filter : Log.Filter) (shell : Shell) : IO UInt32 := do
  emit filter shell.prompt
  match ← readLine [] with
  | none =>
    shell.finish.forM (emit filter)
    return 0
  | some .undecodable =>
    emit filter (.complaint Shell.undecodableInput)
    return 1
  | some (.text line) =>
    let reply := shell.reply line
    reply.events.forM (emit filter)
    match reply.next with
    | none => return 0
    | some next => converse filter next

end ReversePolish.Program

def main (arguments : List String) : IO UInt32 := do
  let request := ReversePolish.Program.Arguments.read arguments
  let setting? ← IO.getEnv ReversePolish.Program.filterVariable
  let filter := ReversePolish.Program.filter setting? (ReversePolish.Program.logLevel? request)
  match ReversePolish.Program.start request with
  | .done run =>
    run.events.forM (ReversePolish.Program.emit filter)
    return run.exitCode.toUInt32
  | .dialogue events shell =>
    events.forM (ReversePolish.Program.emit filter)
    ReversePolish.Program.converse filter shell

/-
  Commands: what a line stands for at the main prompt.
-/
import ReversePolish.Text.Blank

namespace ReversePolish.Shell

/-- A command. -/
inductive Command where
  | quit
  | clear
  | showStack
  | showTape
  | forget
  | batch
  | help
  /-- A blank line asks for nothing. -/
  | nothing
  | evaluate (expression : String)
  deriving DecidableEq

/-- The command of a line.  Blanks around it do not matter; what is no command
    word is an expression. -/
def Command.ofLine (line : String) : Command :=
  match Text.trim line with
  | "q" | "quit" => .quit
  | "c" | "clear" => .clear
  | "s" | "stack" => .showStack
  | "h" | "history" => .showTape
  | "clearh" => .forget
  | "batch" => .batch
  | "help" => .help
  | "" => .nothing
  | expression => .evaluate expression

end ReversePolish.Shell

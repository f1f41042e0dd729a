/-
  The fixed texts of the interactive program.
-/

namespace ReversePolish.Shell

/-- The text with these lines. -/
def unlines (lines : List String) : String :=
  String.join (lines.map (· ++ "\n"))

def welcome : String :=
  unlines
    ["==========================================",
     "        RPN Calculator",
     "==========================================",
     "Basic Operations: +, -, *, /",
     "Advanced Operations: sqrt, ^, sin, cos, tan, fib, pascal",
     "Commands: c(clear), s(stack), h(history), q(quit)",
     "Example: '5 5 + 3 *' or '10 fib'",
     "=========================================="]

def help : String :=
  unlines
    ["",
     "Available Commands:",
     "  <expression>  - Enter RPN expression",
     "  c         - Clear stack",
     "  s         - Display stack",
     "  h         - Show calculation history",
     "  clearh    - Clear history records",
     "  batch     - Batch calculation mode",
     "  help      - Show help information",
     "  q         - Exit program"]

def batchHeading : String :=
  unlines ["", "Batch Calculation Mode (press Enter to finish):"]

def goodbye : String := "Goodbye!\n"

/-- What is said of an input line that is not UTF-8. -/
def undecodableInput : String :=
  "Error: Error \x7b kind: InvalidData, message: \"stream did not contain valid UTF-8\" \x7d\n"

end ReversePolish.Shell

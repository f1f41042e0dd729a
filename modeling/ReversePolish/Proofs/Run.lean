/-
  Runs of the program that are dialogues.

  * `Program.events_dialogue`: without expressions among its arguments, the program
    is a dialogue;
  * `Program.events_of_leads` and `Program.run_of_leads`: it goes on where its first
    lines have led.
-/
import ReversePolish.Program.Run
import ReversePolish.Proofs.Dialogue

namespace ReversePolish.Program

open Shell (Event Leads stdout stderr)
open Text (Line)

variable {options : List String} {level? : Option String} {input : List UInt8}
  {lines rest : List Line} {shown : List Event} {shell : Shell}

/-- **Without expressions** among the arguments, the program is a dialogue. -/
theorem events_dialogue (hoptions : Arguments.read options = .ok (.calculate ⟨level?, []⟩))
    (input : List UInt8) :
    events options input = (Shell.run {} (Line.all input)).after [.output Shell.welcome] := by
  rw [events, hoptions]
  rfl

/-- The dialogue of the program goes on where its first lines have led. -/
theorem events_of_leads (hoptions : Arguments.read options = .ok (.calculate ⟨level?, []⟩))
    (hleads : Leads {} lines shown shell) (hinput : Line.all input = lines ++ rest) :
    events options input = (shell.run rest).after (.output Shell.welcome :: shown) := by
  rw [events_dialogue hoptions, hinput, hleads.run, Shell.Run.after_after]
  rfl

/-- What the program shows, and how it ends, where the first lines have led. -/
theorem run_of_leads (hoptions : Arguments.read options = .ok (.calculate ⟨level?, []⟩))
    (hleads : Leads {} lines shown shell) (hinput : Line.all input = lines ++ rest)
    (setting? : Option String) :
    run options setting? input =
      ⟨(shell.run rest).exitCode,
        Shell.welcome ++ stdout shown ++ stdout (shell.run rest).events,
        stderr (filter setting? level?) shown ++
          stderr (filter setting? level?) (shell.run rest).events⟩ := by
  rw [run, events_of_leads hoptions hleads hinput, hoptions]
  simp only [Shell.Run.after, logLevel?, Shell.stdout_append, Shell.stdout_cons_output,
    Shell.stderr_append, Shell.stderr_cons_output]

end ReversePolish.Program

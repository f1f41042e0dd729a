/-
  How dialogues end: with a request to quit, with the end of the input, or with a
  line that cannot be decoded.

  * `Shell.NeverQuits`: no line that is read at the main prompt is a request to
    quit, and `NeverQuits.exists_leads`: such lines lead somewhere;
  * `Leads.exists_opening`: how far a batch has come that is being collected;
  * `Shell.run_parting`: the end of the input is answered as a request to quit;
  * `Program.run_endOfInput`: the program on lines without a request to quit, and
    on the same lines with one;
  * `Program.run_undecodable`: the program on lines, one that cannot be decoded,
    and whatever comes after it.
-/
import ReversePolish.Proofs.Lines
import ReversePolish.Proofs.Report
import ReversePolish.Proofs.Run

namespace ReversePolish

open Text (Line)

namespace Shell

variable {line : String} {lines lines' : List String} {events : List Event}
  {calculator : Calculator} {expressions : List String}

/-! ## Lines without a request to quit -/

/-- No line that is read at the main prompt is a request to quit. -/
def NeverQuits (lines : List String) : Prop :=
  ∀ before line rest events calculator, lines = before ++ line :: rest →
    Leads {} (before.map .text) events { calculator } →
    Text.trim line ≠ "q" ∧ Text.trim line ≠ "quit"

theorem NeverQuits.of_append (h : NeverQuits (lines ++ lines')) : NeverQuits lines := by
  rintro before line rest events calculator rfl
  exact h before line (rest ++ lines') events calculator (by simp)

/-- **Lines lead somewhere**, unless there is a request to quit among them. -/
theorem NeverQuits.exists_leads (h : NeverQuits lines) :
    ∃ events later, Leads {} (lines.map .text) events later := by
  induction lines using List.reverseRecOn with
  | nil => exact ⟨[], {}, .nil {}⟩
  | append_singleton lines line ih =>
    obtain ⟨events, later, hleads⟩ := ih h.of_append
    have hnext : (later.reply line).next ≠ none := by
      intro hnone
      obtain ⟨hmode, hcommand⟩ := next_reply_eq_none_iff.1 hnone
      have hlater : later = { calculator := later.calculator } := by rw [← hmode]
      obtain ⟨hq, hquit⟩ := h lines line [] events later.calculator rfl (hlater ▸ hleads)
      exact (Command.ofLine_eq_quit_iff.1 hcommand).elim hq hquit
    obtain ⟨next, hnext⟩ := Option.ne_none_iff_exists'.1 hnext
    rw [List.map_append]
    exact ⟨_, next, hleads.append (.cons hnext (.nil next))⟩

/-! ## Batches that are being collected -/

/-- **A batch that is being collected** has been opened at the main prompt.  The
    lines since then are its expressions: they have been asked for, and nothing
    else has happened. -/
theorem Leads.exists_opening
    (h : Leads {} (lines.map .text) events ⟨calculator, .collecting expressions⟩) :
    ∃ before opening beforeEvents, lines = before ++ opening :: expressions ∧
      Text.trim opening = "batch" ∧ Leads {} (before.map .text) beforeEvents { calculator } ∧
      events = beforeEvents ++ .output "\n> " :: .output batchHeading ::
        (List.range expressions.length).map expressionPrompt := by
  induction lines using List.reverseRecOn generalizing events expressions with
  | nil => cases h
  | append_singleton lines line ih =>
    rw [List.map_append] at h
    obtain ⟨beforeEvents, ⟨calculator', mode⟩, hbefore, hnext, rfl⟩ := h.exists_concat
    obtain ⟨rfl, ⟨rfl, hbatch, rfl, hreply⟩ | ⟨collected, rfl, rfl, hreply⟩⟩ :=
      reply_collecting hnext
    · rw [hreply]
      exact ⟨lines, line, beforeEvents, rfl, Command.trim_of_batch hbatch, hbefore, rfl⟩
    · obtain ⟨before, opening, openingEvents, rfl, hopening, hleads, rfl⟩ := ih hbefore
      refine ⟨before, opening, openingEvents, by simp, hopening, hleads, ?_⟩
      rw [hreply, List.length_append, List.length_singleton, List.range_succ]
      simp [prompt, expressionPrompt]

/-! ## The end of a dialogue -/

/-- The lines that end a dialogue as the end of the input does: a request to quit,
    after an empty line if a batch is being collected. -/
def parting (shell : Shell) (request : String) : List Line :=
  match shell.mode with
  | .command => [.text request]
  | .collecting _ => [.text "", .text request]

/-- The main prompt, and the last words. -/
def farewell : List Event :=
  [.output "\n> ", .output goodbye]

theorem run_command_nil (calculator : Calculator) : Shell.run { calculator } [] = ⟨0, farewell⟩ :=
  rfl

theorem run_quit (calculator : Calculator) (h : Command.ofLine line = .quit) (rest : List Line) :
    Shell.run { calculator } (.text line :: rest) = ⟨0, farewell⟩ := by
  simp [Shell.run, reply, h, obey, prompt, farewell]

theorem stdout_farewell : stdout farewell = "\n> Goodbye!\n" := by
  decide

theorem stderr_farewell (filter : Log.Filter) : stderr filter farewell = "" :=
  stderr_map_output filter ["\n> ", goodbye]

/-- An empty line closes a batch, also one without expressions. -/
theorem run_close (calculator : Calculator) (expressions : List String) (rest : List Line) :
    Shell.run ⟨calculator, .collecting expressions⟩ (.text "" :: rest) =
      (Shell.run { calculator := (closeBatch calculator expressions).1 } rest).after
        (expressionPrompt expressions.length :: (closeBatch calculator expressions).2) :=
  rfl

/-- The end of the input closes a batch as well. -/
theorem run_collecting_nil (calculator : Calculator) (expressions : List String) :
    Shell.run ⟨calculator, .collecting expressions⟩ [] =
      (Shell.run { calculator := (closeBatch calculator expressions).1 } []).after
        (expressionPrompt expressions.length :: (closeBatch calculator expressions).2) :=
  rfl

/-- A batch with expressions is shown before the dialogue ends. -/
theorem events_collecting_nil (calculator : Calculator) (h : expressions ≠ []) :
    (Shell.run ⟨calculator, .collecting expressions⟩ []).events =
      expressionPrompt expressions.length :: .output "\n" ::
        ((showBatch calculator expressions).2 ++ farewell) := by
  obtain ⟨expression, expressions, rfl⟩ := List.exists_cons_of_ne_nil h
  rfl

/-- **The end of the input** is answered as a request to quit. -/
theorem run_parting (shell : Shell) (h : Command.ofLine line = .quit) (rest : List Line) :
    shell.run (shell.parting line ++ rest) = shell.run [] := by
  obtain ⟨calculator, - | expressions⟩ := shell
  · rw [run_command_nil]
    exact run_quit calculator h rest
  · rw [run_collecting_nil, run_command_nil, ← run_quit _ h rest]
    exact run_close calculator expressions _

theorem exists_prompt (shell : Shell) : ∃ text, shell.prompt = .output text := by
  unfold prompt
  split <;> exact ⟨_, rfl⟩

/-- At the end of the input, a dialogue comes to the last words. -/
theorem exists_run_nil (shell : Shell) :
    ∃ events, shell.run [] = ⟨0, events ++ farewell⟩ := by
  obtain ⟨calculator, - | expressions⟩ := shell
  · exact ⟨[], rfl⟩
  · exact ⟨expressionPrompt expressions.length :: (closeBatch calculator expressions).2, rfl⟩

end Shell

/-! ## Runs -/

namespace Program

open Shell (Event Leads NeverQuits expressionPrompt report unlines stdout stderr)
open Text (utf8)
open Calculator (logOf)

variable {options lines : List String} {level? : Option String} {input typed bad : List UInt8}

/-- **Quit and end of input.**  If lines hold no request to quit, the program
    comes to a good end with them; and with a request to quit after them, after an
    empty line if a batch is being collected, it does the same, whatever comes
    after that.  The batch is reported. -/
theorem run_endOfInput (hoptions : Arguments.read options = .ok (.calculate ⟨level?, []⟩))
    (hlines : Line.all input = lines.map .text) (hquit : NeverQuits lines)
    (setting? : Option String) :
    let result := run options setting? input
    result.exitCode = 0 ∧
    (∃ shown, result.stdout = shown ++ "\n> Goodbye!\n") ∧
    ∃ shown shell, Leads {} (lines.map .text) shown shell ∧
      (∀ request typed, Text.trim request = "q" ∨ Text.trim request = "quit" →
        Line.all typed = lines.map .text ++ shell.parting request →
        run options setting? typed = result ∧
        (Line.Complete typed → ∀ rest, run options setting? (typed ++ rest) = result)) ∧
      ∀ expressions, shell.mode = .collecting expressions → expressions ≠ [] →
        result.stdout = Shell.welcome ++ stdout shown ++
          s!"Expression {expressions.length + 1}: " ++ "\n" ++ unlines (report expressions) ++
          "\n> Goodbye!\n" ∧
        result.stderr = stderr (filter setting? level?) shown ++
          stderr (filter setting? level?) ((expressions.flatMap logOf).map .log) := by
  intro result
  obtain ⟨shown, shell, hleads⟩ := hquit.exists_leads
  obtain ⟨before, hlast⟩ := shell.exists_run_nil
  have hread : Line.all input = lines.map .text ++ [] := by rw [hlines, List.append_nil]
  have hresult : result = _ := run_of_leads hoptions hleads hread setting?
  refine ⟨?_, ?_, shown, shell, hleads, ?_, ?_⟩
  · rw [hresult, hlast]
  · refine ⟨Shell.welcome ++ stdout shown ++ stdout before, ?_⟩
    simp only [hresult, hlast, Shell.stdout_append, Shell.stdout_farewell, String.append_assoc]
  · intro request typed hrequest htyped
    have hcommand := Shell.Command.ofLine_eq_quit_iff.2 hrequest
    have hsame : ∀ bytes rest, Line.all bytes = lines.map .text ++ (shell.parting request ++ rest) →
        run options setting? bytes = result := by
      intro bytes rest hbytes
      rw [run_of_leads hoptions hleads hbytes, shell.run_parting hcommand, hresult]
    refine ⟨hsame typed [] (by rw [htyped, List.append_nil]), fun hcomplete rest => ?_⟩
    refine hsame (typed ++ rest) (Line.all rest) ?_
    rw [Line.all_append hcomplete, htyped, List.append_assoc]
  · intro expressions hmode hne
    obtain ⟨calculator, mode⟩ := shell
    obtain rfl : mode = .collecting expressions := hmode
    rw [hresult, Shell.events_collecting_nil calculator hne, expressionPrompt]
    constructor
    · simp only [Shell.stdout_append, Shell.stdout_cons_output, Shell.stdout_showBatch_eq,
        Shell.stdout_farewell, String.append_assoc]
    · simp only [Shell.stderr_append, Shell.stderr_cons_output, Shell.stderr_showBatch,
        Shell.stderr_farewell, String.append_empty]

theorem neverQuits_batch : NeverQuits ["batch", "q"] := by
  intro before line rest events calculator heq hleads
  rcases before with - | ⟨first, - | ⟨second, before⟩⟩
  · obtain ⟨rfl, -⟩ := List.cons.inj heq
    decide +kernel
  · obtain ⟨rfl, -⟩ := List.cons.inj heq
    have hopened : Leads {} [.text "batch"] _ ⟨{}, .collecting []⟩ := Shell.leads_of_reply rfl
    cases (hleads.unique hopened).2
  · simp at heq

/-- At the end of the input, a batch is closed, here one with an expression that
    would be a request to quit at the main prompt. -/
theorem run_endOfInput_collecting :
    let result := run ["--log-level=debug"] none (utf8 "batch\nq")
    result.exitCode = 0 ∧
    result.stdout = Shell.welcome ++ "\n> " ++ Shell.batchHeading ++
      "Expression 1: Expression 2: \nCalculation Results:\n1. q = Error\n\n> Goodbye!\n" ∧
    run ["--log-level=debug"] none (utf8 "batch\nq\n\n quit\n" ++ [0xFF]) = result := by
  intro result
  have hlines : Line.all (utf8 "batch\nq") = ["batch", "q"].map .text := by decide +kernel
  have htyped : Line.all (utf8 "batch\nq\n\n quit\n") =
      ["batch", "q"].map .text ++ [.text "", .text " quit"] := by decide +kernel
  have hleads : Leads {} (["batch", "q"].map .text) _ ⟨{}, .collecting ["q"]⟩ :=
    (Shell.leads_of_reply rfl).append (Shell.leads_of_reply rfl)
  have hoptions : Arguments.read ["--log-level=debug"] = .ok (.calculate ⟨some "debug", []⟩) := rfl
  obtain ⟨hexit, -, shown, shell, hshown, hparting, hcollecting⟩ :=
    run_endOfInput hoptions hlines neverQuits_batch none
  obtain ⟨rfl, rfl⟩ := hshown.unique hleads
  obtain ⟨-, hrest⟩ := hparting " quit" _ (Or.inr (by decide +kernel)) htyped
  obtain ⟨hstdout, -⟩ := hcollecting ["q"] rfl (List.cons_ne_nil "q" [])
  rw [Shell.unlines_report_quit] at hstdout
  exact ⟨hexit, hstdout.trans (by decide +kernel), hrest (by decide +kernel) [0xFF]⟩

/-- What the program shows, and how it ends, with a line that cannot be decoded.  The
    lines that follow are not read. -/
theorem run_of_undecodable {shown : List Event} {shell : Shell} {rest : List UInt8}
    (hoptions : Arguments.read options = .ok (.calculate ⟨level?, []⟩))
    (hcomplete : Line.Complete typed) (hleads : Leads {} (Line.all typed) shown shell)
    (hfeed : Line.feed ∉ bad) (hbad : ∀ text, utf8 text ≠ bad)
    (hrest : ∀ byte ∈ rest.head?, byte = Line.feed) (setting? : Option String) :
    run options setting? (typed ++ bad ++ rest) =
      ⟨1, Shell.welcome ++ stdout shown ++ shell.prompt.outputText,
        stderr (filter setting? level?) shown ++ Shell.undecodableInput⟩ := by
  obtain ⟨later, hlater⟩ := Line.all_undecodable hfeed hbad hrest
  have hinput : Line.all (typed ++ bad ++ rest) = Line.all typed ++ .undecodable :: later := by
    rw [List.append_assoc, Line.all_append hcomplete, hlater]
  obtain ⟨prompted, hprompt⟩ := shell.exists_prompt
  rw [run_of_leads hoptions hleads hinput, Shell.run, hprompt, Shell.stdout_cons_output,
    Shell.stdout_complaint, Shell.stderr_cons_output, Shell.stderr_complaint,
    String.append_empty]
  rfl

/-- **Undecodable lines.**  A line that is not UTF-8 ends the program with an error,
    whatever comes after it.  What the lines before it have led to has been shown;
    at the main prompt, that is what is shown without it, but for the last words.
    Of a batch that is being collected, nothing but its prompts is shown. -/
theorem run_undecodable (hoptions : Arguments.read options = .ok (.calculate ⟨level?, []⟩))
    (hcomplete : Line.Complete typed) (hlines : Line.all typed = lines.map .text)
    (hquit : NeverQuits lines) (hfeed : Line.feed ∉ bad) (hbad : ∀ text, utf8 text ≠ bad)
    (setting? : Option String) :
    ∃ shown shell, Leads {} (lines.map .text) shown shell ∧
      ∀ rest, (∀ byte ∈ rest.head?, byte = Line.feed) →
        let result := run options setting? (typed ++ bad ++ rest)
        result.exitCode = 1 ∧
        result.stderr = stderr (filter setting? level?) shown ++ Shell.undecodableInput ∧
        (shell.mode = .command →
          (run options setting? typed).stdout = result.stdout ++ "Goodbye!\n" ∧
          result.stderr = (run options setting? typed).stderr ++ Shell.undecodableInput) ∧
        (∀ expressions, shell.mode = .collecting expressions →
          ∃ before opening beforeEvents, lines = before ++ opening :: expressions ∧
            Text.trim opening = "batch" ∧
            Leads {} (before.map .text) beforeEvents { calculator := shell.calculator } ∧
            result.stdout = Shell.welcome ++ stdout beforeEvents ++ "\n> " ++ Shell.batchHeading ++
              String.join ((List.range (expressions.length + 1)).map fun position =>
                s!"Expression {position + 1}: ") ∧
            result.stderr =
              stderr (filter setting? level?) beforeEvents ++ Shell.undecodableInput) ∧
        ∀ rest', (∀ byte ∈ rest'.head?, byte = Line.feed) →
          run options setting? (typed ++ bad ++ rest') = result := by
  obtain ⟨shown, shell, hleads⟩ := hquit.exists_leads
  have hrun : ∀ rest, (∀ byte ∈ rest.head?, byte = Line.feed) →
      run options setting? (typed ++ bad ++ rest) = _ := fun rest hrest =>
    run_of_undecodable hoptions hcomplete (hlines ▸ hleads) hfeed hbad hrest setting?
  refine ⟨shown, shell, hleads, fun rest hrest => ?_⟩
  rw [hrun rest hrest]
  refine ⟨rfl, rfl, fun hmode => ?_, fun expressions hmode => ?_, hrun⟩
  · obtain ⟨calculator, mode⟩ := shell
    obtain rfl : mode = .command := hmode
    have htyped := run_of_leads hoptions hleads (by rw [hlines, List.append_nil]) setting?
    have hgoodbye : "\n> Goodbye!\n" = "\n> " ++ "Goodbye!\n" := by decide
    rw [htyped, Shell.run_command_nil, Shell.stdout_farewell, Shell.stderr_farewell, hgoodbye,
      String.append_empty, ← String.append_assoc]
    exact ⟨rfl, rfl⟩
  · obtain ⟨calculator, mode⟩ := shell
    obtain rfl : mode = .collecting expressions := hmode
    obtain ⟨before, opening, beforeEvents, hopened, hopening, hbefore, rfl⟩ := hleads.exists_opening
    refine ⟨before, opening, beforeEvents, hopened, hopening, hbefore, ?_, ?_⟩
    · rw [List.range_succ, List.map_append, String.join_append]
      simp only [Shell.stdout_append, Shell.stdout_cons_output, Shell.stdout_expressionPrompts,
        String.append_assoc]
      rfl
    · simp only [Shell.stderr_append, Shell.stderr_cons_output, Shell.stderr_expressionPrompts,
        String.append_empty]

theorem neverQuits_stack : NeverQuits ["s", "batch", "5"] := by
  rintro before line rest events calculator heq -
  have hwords : ∀ line ∈ ["s", "batch", "5"], Text.trim line ≠ "q" ∧ Text.trim line ≠ "quit" := by
    decide +kernel
  exact hwords line (by simp [heq])

/-- In the middle of a batch, a line that is not UTF-8 ends the program. -/
theorem run_undecodable_collecting :
    let result := run [] none (utf8 "s\nbatch\n5\n" ++ [0xFF, 0x0D] ++ utf8 "\nq\n")
    result.exitCode = 1 ∧
    result.stdout = Shell.welcome ++ "\n> Stack is empty\n\n> " ++ Shell.batchHeading ++
      "Expression 1: Expression 2: " ∧
    result.stderr = Shell.undecodableInput := by
  intro result
  have hlines : Line.all (utf8 "s\nbatch\n5\n") = ["s", "batch", "5"].map .text := by
    decide +kernel
  have hbad : ∀ text, utf8 text ≠ [0xFF, 0x0D] := by
    intro text htext
    have hread : Line.ofBytes [0xFF, 0x0D] = .undecodable := by decide +kernel
    rw [← htext, Text.ofBytes_utf8] at hread
    cases hread
  have hstack : Leads {} (["s"].map .text) [.output "\n> ", .output "Stack is empty\n"] {} :=
    Shell.leads_of_reply rfl
  have hleads : Leads {} (["s", "batch", "5"].map .text) _ ⟨{}, .collecting ["5"]⟩ :=
    hstack.append ((Shell.leads_of_reply rfl).append (Shell.leads_of_reply rfl))
  have hoptions : Arguments.read [] = .ok (.calculate ⟨none, []⟩) := rfl
  obtain ⟨shown, shell, hshown, hresult⟩ :=
    run_undecodable hoptions (by decide +kernel) hlines neverQuits_stack (by decide +kernel) hbad
      none
  obtain ⟨rfl, rfl⟩ := hshown.unique hleads
  obtain ⟨hexit, -, -, hcollecting, -⟩ := hresult (utf8 "\nq\n") (by decide +kernel)
  obtain ⟨before, opening, beforeEvents, hopened, -, hbefore, hstdout, hstderr⟩ :=
    hcollecting ["5"] rfl
  obtain ⟨rfl, -⟩ : ["s"] = before ∧ ["batch", "5"] = [opening, "5"] :=
    List.append_inj' hopened rfl
  obtain ⟨rfl, -⟩ := hbefore.unique hstack
  have hunlogged : ∀ filter, stderr filter [.output "\n> ", .output "Stack is empty\n"] = "" :=
    fun filter => Shell.stderr_map_output filter ["\n> ", "Stack is empty\n"]
  rw [hunlogged, String.empty_append] at hstderr
  exact ⟨hexit, hstdout.trans (by decide +kernel), hstderr⟩

end Program

end ReversePolish

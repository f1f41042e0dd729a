/-
  The lines of a dialogue, each at the place where it is read.

  * `Shell.Script`: lines that are read at the main prompt, and batches;
    `Script.lines` are the lines that are read, `Script.unread` the others;
  * `Script.existsUnique`: all lines are those of one script;
  * `Shell.run_script`: the dialogue on the lines of a script answers each of them at
    its place;
  * `Program.events_readOnce`: the program reads each line of its input once.
-/
import ReversePolish.Proofs.Collection

namespace ReversePolish

open Text (Line)

namespace Shell

/-! ## Scripts -/

/-- A batch as it is typed in: the line that opens it, and its expressions. -/
structure Batch where
  opening : String
  expressions : List String
  opens : Command.ofLine opening = .batch
  filled : ∀ expression ∈ expressions, expression ≠ ""

namespace Batch

def lines (batch : Batch) : List Line :=
  .text batch.opening :: batch.expressions.map .text

/-- What is shown while the batch is typed in. -/
def prompts (batch : Batch) : List Event :=
  .output "\n> " :: .output batchHeading :: promptsOf batch.expressions

/-- The batch that a line opens. -/
def opened {line : String} (h : Command.ofLine line = .batch) : Batch :=
  ⟨line, [], h, by simp⟩

/-- The batch with one more expression. -/
def add (batch : Batch) (expression : String) (h : expression ≠ "") : Batch where
  opening := batch.opening
  expressions := batch.expressions ++ [expression]
  opens := batch.opens
  filled := by
    intro e he
    rcases List.mem_append.1 he with he | he
    · exact batch.filled e he
    · rwa [List.mem_singleton.1 he]

end Batch

/-- The lines of a dialogue, from one main prompt on. -/
inductive Script where
  /-- The end of the input. -/
  | endOfInput
  /-- A line that cannot be decoded. -/
  | undecodable (unread : List Line)
  /-- A request to quit. -/
  | quit (line : String) (quits : Command.ofLine line = .quit) (unread : List Line)
  /-- Any other command that takes one line. -/
  | command (line : String)
      (goesOn : Command.ofLine line ≠ .quit ∧ Command.ofLine line ≠ .batch) (later : Script)
  /-- A batch that an empty line closes. -/
  | batch (typed : Batch) (later : Script)
  /-- A batch that the end of the input closes. -/
  | openBatch (typed : Batch)
  /-- A batch with a line that cannot be decoded. -/
  | brokenBatch (typed : Batch) (unread : List Line)

namespace Script

/-- The lines that are read. -/
def lines : Script → List Line
  | endOfInput => []
  | undecodable _ => [.undecodable]
  | quit line _ _ => [.text line]
  | command line _ later => .text line :: later.lines
  | batch typed later => typed.lines ++ .text "" :: later.lines
  | openBatch typed => typed.lines
  | brokenBatch typed _ => typed.lines ++ [.undecodable]

/-- The lines that come after the end of the dialogue. -/
def unread : Script → List Line
  | endOfInput | openBatch _ => []
  | undecodable unread | quit _ _ unread | brokenBatch _ unread => unread
  | command _ _ later | batch _ later => later.unread

/-- The script of lines of which the first one is read at the main prompt, or for the
    batch that has been opened. -/
def readFrom : (opened : Option Batch) → List Line → Script
  | none, [] => endOfInput
  | none, .undecodable :: unread => undecodable unread
  | none, .text line :: rest =>
    if hquit : Command.ofLine line = .quit then quit line hquit rest
    else if hbatch : Command.ofLine line = .batch then readFrom (some (.opened hbatch)) rest
    else command line ⟨hquit, hbatch⟩ (readFrom none rest)
  | some collected, [] => openBatch collected
  | some collected, .undecodable :: unread => brokenBatch collected unread
  | some collected, .text line :: rest =>
    if hempty : line = "" then batch collected (readFrom none rest)
    else readFrom (some (collected.add line hempty)) rest

/-- No line is lost. -/
theorem lines_readFrom (opened : Option Batch) (rest : List Line) :
    (readFrom opened rest).lines ++ (readFrom opened rest).unread =
      (opened.map Batch.lines).getD [] ++ rest := by
  induction rest generalizing opened with
  | nil => cases opened <;> simp [readFrom, lines, unread]
  | cons line rest ih =>
    cases opened with
    | none =>
      cases line with
      | undecodable => simp [readFrom, lines, unread]
      | text line =>
        by_cases hquit : Command.ofLine line = .quit
        · simp [readFrom, hquit, lines, unread]
        · by_cases hbatch : Command.ofLine line = .batch
          -- the line waits in the batch for what will close it
          · simp [readFrom, hbatch, ih, Batch.opened, Batch.lines]
          · simp [readFrom, hquit, hbatch, ih, lines, unread]
    | some collected =>
      cases line with
      | undecodable => simp [readFrom, lines, unread]
      | text line =>
        by_cases hempty : line = ""
        · simp [readFrom, hempty, ih, lines, unread]
        · simp [readFrom, hempty, ih, Batch.add, Batch.lines]

/-- The lines of a batch open it. -/
theorem readFrom_batch (typed : Batch) (rest : List Line) :
    readFrom none (typed.lines ++ rest) = readFrom (some typed) rest := by
  obtain ⟨opening, expressions, opens, filled⟩ := typed
  -- from the last expression backwards, as `add` appends
  induction expressions using List.reverseRecOn generalizing rest with
  | nil => simp [Batch.lines, readFrom, opens, Batch.opened]
  | append_singleton expressions expression ih =>
    have hempty : expression ≠ "" := filled expression (by simp)
    have hread := ih (.text expression :: rest) fun e he => filled e (by simp [he])
    simpa [Batch.lines, readFrom, hempty, Batch.add] using hread

theorem readFrom_lines (script : Script) :
    readFrom none (script.lines ++ script.unread) = script := by
  induction script with
  | endOfInput | undecodable unread => rfl
  | quit line quits unread => simp [lines, Script.unread, readFrom, quits]
  | command line goesOn later ih => simp [lines, unread, readFrom, goesOn, ih]
  | batch typed later ih => simp [lines, unread, readFrom_batch, readFrom, ih]
  | openBatch typed => exact readFrom_batch typed []
  | brokenBatch typed unread => simp [lines, Script.unread, readFrom_batch, readFrom]

/-- **All lines** are those of one script. -/
theorem existsUnique (input : List Line) :
    ∃! script : Script, script.lines ++ script.unread = input := by
  refine ⟨readFrom none input, lines_readFrom none input, ?_⟩
  rintro script rfl
  exact (readFrom_lines script).symm

/-- Lines are left unread after a request to quit, or a line that cannot be decoded. -/
theorem exists_last {script : Script} (h : script.unread ≠ []) :
    ∃ before last, script.lines = before ++ [last] ∧
      (last = .undecodable ∨ ∃ line, last = .text line ∧ Command.ofLine line = .quit) := by
  induction script with
  | endOfInput | openBatch typed => exact absurd rfl h
  | undecodable unread => exact ⟨[], _, rfl, .inl rfl⟩
  | quit line quits unread => exact ⟨[], _, rfl, .inr ⟨line, rfl, quits⟩⟩
  | command line goesOn later ih =>
    obtain ⟨before, last, hlines, hlast⟩ := ih h
    exact ⟨.text line :: before, last, by simp [lines, hlines], hlast⟩
  | batch typed later ih =>
    obtain ⟨before, last, hlines, hlast⟩ := ih h
    exact ⟨typed.lines ++ .text "" :: before, last, by simp [lines, hlines], hlast⟩
  | brokenBatch typed unread => exact ⟨typed.lines, _, rfl, .inl rfl⟩

end Script

/-! ## The dialogue on a script -/

/-- The calculator after a command.  A request to quit leaves it as it is. -/
def obeyed (calculator : Calculator) (command : Command) : Calculator :=
  match (obey calculator command).next with
  | none => calculator
  | some shell => shell.calculator

theorem next_obey (calculator : Calculator) {command : Command}
    (h : command ≠ .quit ∧ command ≠ .batch) :
    (obey calculator command).next = some { calculator := obeyed calculator command } := by
  cases command with
  | quit => exact absurd rfl h.1
  | batch => exact absurd rfl h.2
  | clear | showStack | showTape | forget | help | nothing | evaluate => rfl

/-- The dialogue on a script: each line is answered once, at its place. -/
def Script.run (calculator : Calculator) : Script → Run
  | endOfInput => ⟨0, farewell⟩
  | undecodable _ => ⟨1, [.output "\n> ", .complaint undecodableInput]⟩
  | quit _ _ _ => ⟨0, farewell⟩
  | command line _ later =>
    let command := Command.ofLine line
    (later.run (obeyed calculator command)).after
      (.output "\n> " :: (obey calculator command).events)
  | batch typed later =>
    let (calculator, events) := closeBatch calculator typed.expressions
    (later.run calculator).after (typed.prompts ++ events)
  | openBatch typed =>
    ⟨0, typed.prompts ++ (closeBatch calculator typed.expressions).2 ++ farewell⟩
  | brokenBatch typed _ => ⟨1, typed.prompts ++ [.complaint undecodableInput]⟩

/-- The dialogue on a batch, of which it is known what its collection comes to. -/
theorem run_typed (calculator : Calculator) (typed : Batch) {later rest : List Line}
    {result : Except String (List String)}
    (h : Collects (typed.expressions.map .text ++ later)
      ⟨promptsOf typed.expressions, result, rest⟩) :
    Shell.run { calculator } (typed.lines ++ later) =
      Collection.resume calculator ⟨typed.prompts, result, rest⟩ := by
  have hreply : Shell.reply { calculator } typed.opening =
      ⟨[.output batchHeading], some ⟨calculator, .collecting []⟩⟩ := by
    rw [reply, typed.opens]
    rfl
  have hrun := (leads_of_reply hreply).run (typed.expressions.map .text ++ later)
  rw [run_collecting, h.collect_eq, ← Collection.resume_append] at hrun
  exact hrun

/-- **The dialogue on the lines of a script.** -/
theorem run_script (calculator : Calculator) (script : Script) :
    Shell.run { calculator } (script.lines ++ script.unread) = script.run calculator := by
  induction script generalizing calculator with
  | endOfInput | undecodable unread => rfl
  | quit line quits unread => exact run_quit calculator quits unread
  | command line goesOn later ih =>
    have hnext : (Shell.reply { calculator } line).next = _ := next_obey calculator goesOn
    have hrun := (Leads.cons hnext (.nil _)).run (later.lines ++ later.unread)
    rw [ih, List.append_nil] at hrun
    exact hrun
  | batch typed later ih =>
    have hrun := run_typed calculator typed (.emptyLine typed.filled (later.lines ++ later.unread))
    simpa [Script.lines, Script.unread, Script.run, Collection.resume, ih] using hrun
  | openBatch typed =>
    have hcollects := Collects.endOfInput typed.filled
    rw [← List.append_nil (typed.expressions.map Line.text)] at hcollects
    have hrun := run_typed calculator typed hcollects
    simpa [Script.lines, Script.unread, Script.run, Collection.resume, run_command_nil,
      Run.after] using hrun
  | brokenBatch typed unread =>
    have hrun := run_typed calculator typed (.undecodable typed.filled unread)
    simpa [Script.lines, Script.unread, Script.run, Collection.resume] using hrun

end Shell

/-! ## Runs -/

namespace Program

open Shell (Leads Collects Script expressionPrompt promptsOf stdout)
open Text (utf8)

variable {options : List String} {level? : Option String}

/-- **Each line is read once.**  Lines that are not empty are collected as they are,
    with a prompt for each of them, whatever comes later.  The collection of a batch
    takes the lines up to the first empty one, or the end of the input, and the main
    prompt goes on with the next line; with a line that cannot be decoded, there are no
    expressions.  So the lines of the input are those of one script, in which each line
    has its place at the main prompt or in one batch, and is answered there.  Only
    those that follow a request to quit or a line that cannot be decoded are not read. -/
theorem events_readOnce (hoptions : Arguments.read options = .ok (.calculate ⟨level?, []⟩))
    (input : List UInt8) :
    (∀ calculator expressions, (∀ expression ∈ expressions, expression ≠ "") →
      Leads ⟨calculator, .collecting []⟩ (expressions.map .text)
        ((List.range expressions.length).map expressionPrompt)
        ⟨calculator, .collecting expressions⟩) ∧
    (∀ lines collection, Collects lines collection ↔ Shell.collect [] lines = collection) ∧
    (∀ calculator lines, Shell.run ⟨calculator, .collecting []⟩ lines =
      (Shell.collect [] lines).resume calculator) ∧
    (∃! script : Script, script.lines ++ script.unread = Line.all input) ∧
    ∀ script : Script, script.lines ++ script.unread = Line.all input →
      events options input = (script.run {}).after [.output Shell.welcome] ∧
      (script.unread ≠ [] → ∃ before last, script.lines = before ++ [last] ∧
        (last = .undecodable ∨
          ∃ line, last = .text line ∧ Shell.Command.ofLine line = .quit)) := by
  refine ⟨?_, fun _ _ => Shell.collects_iff, ?_, Script.existsUnique (Line.all input), ?_⟩
  · intro calculator expressions filled
    rw [List.range_eq_range']
    exact Shell.leads_collecting calculator [] filled
  · intro calculator lines
    exact Shell.run_collecting calculator [] lines
  · intro script hscript
    refine ⟨?_, Script.exists_last⟩
    rw [events_dialogue hoptions, ← hscript, Shell.run_script]

/-- The same word is an expression in the batch and a request to quit after it.  The
    line after the request is not read. -/
theorem events_readOnce_quit :
    Shell.collect [] [.text "  ", .text "q", .text "", .text "q"] =
      ⟨promptsOf ["  ", "q"], .ok ["  ", "q"], [.text "q"]⟩ ∧
    (events [] (utf8 "batch\nq\n\nc\nq\n5")).exitCode = 0 ∧
    stdout (events [] (utf8 "batch\nq\n\nc\nq\n5")).events =
      Shell.welcome ++ "\n> " ++ Shell.batchHeading ++ "Expression 1: Expression 2: " ++
        "\nCalculation Results:\n1. q = Error\n" ++ "\n> Stack cleared\n" ++
        "\n> Goodbye!\n" := by
  have hoptions : Arguments.read [] = .ok (.calculate ⟨none, []⟩) := rfl
  obtain ⟨-, hcollects, -, -, hscript⟩ :=
    events_readOnce hoptions (utf8 "batch\nq\n\nc\nq\n5")
  have hcollected : Collects (["  ", "q"].map .text ++ [.text "", .text "q"]) _ :=
    .emptyLine (by decide) [.text "q"]
  have hlines : Line.all (utf8 "batch\nq\n\nc\nq\n5") =
      [.text "batch", .text "q", .text "", .text "c", .text "q", .text "5"] := by
    decide +kernel
  obtain ⟨hevents, -⟩ := hscript
    (.batch ⟨"batch", ["q"], rfl, by decide⟩
      (.command "c" (by decide +kernel) (.quit "q" rfl [.text "5"])))
    hlines.symm
  refine ⟨(hcollects _ _).1 hcollected, ?_, ?_⟩
  · simp only [hevents, Script.run, Shell.Run.after]
  · have hcleared : ∀ calculator : Calculator,
        (Shell.obey calculator (.ofLine "c")).events = [.output "Stack cleared\n"] :=
      fun _ => rfl
    rw [hevents]
    simp only [Script.run, Shell.closeBatch, Shell.Batch.prompts, promptsOf, Shell.Run.after,
      hcleared, Shell.stdout_append, Shell.stdout_cons_output, Shell.stdout_expressionPrompts,
      Shell.stdout_showBatch_eq, Shell.unlines_report_quit, Shell.stdout_farewell]
    decide +kernel

end Program

end ReversePolish

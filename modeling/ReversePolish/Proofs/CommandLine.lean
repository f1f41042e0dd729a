/-
  Batches on the command line and in a dialogue.

  * `Arguments.readFrom_append`: what follows `--` are expressions, whatever
    they look like;
  * `Program.run_batch`: a batch on the command line and one that is typed in,
    at any point of a dialogue, come to the same report and the same log.
-/
import ReversePolish.Proofs.Lines
import ReversePolish.Proofs.Report
import ReversePolish.Proofs.Run

namespace ReversePolish

/-! ## Arguments -/

namespace Program.Arguments

variable {arguments arguments' : Arguments} {argument : String} {options rest : List String}

/-- Any other argument than `--`, the version and a log level that stands apart. -/
theorem readFrom_cons (hdashes : argument ≠ "--") (hversion : argument ≠ "--version")
    (hv : argument ≠ "-V") (hlevel : argument ≠ "--log-level") (rest : List String) :
    arguments.readFrom (argument :: rest) =
      match attachedLevel? argument with
      | some level => (arguments.setLevel level).bind (readFrom · rest)
      | none =>
        if isOption argument then .error (.unknownOption argument)
        else (arguments.addExpression argument).readFrom rest := by
  rw [readFrom]
  · rfl
  · exact hdashes
  · exact hversion
  · exact hv
  · exact fun h _ => hlevel h
  · exact fun _ _ h _ => hlevel h

theorem exists_of_bind {level : Except UsageError Arguments} {request : Request}
    (h : level.bind (readFrom · rest) = .ok request) :
    ∃ arguments, level = .ok arguments ∧ arguments.readFrom rest = .ok request := by
  cases level with
  | error fault => cases h
  | ok arguments => exact ⟨arguments, rfl, h⟩

theorem ne_logLevel (hlast : argument = "--log-level" → rest = [] → False)
    (hlevel : ∀ level rest', argument = "--log-level" → rest = level :: rest' → False) :
    argument ≠ "--log-level" := by
  intro h
  cases rest with
  | nil => exact hlast h rfl
  | cons level rest => exact hlevel level rest h rfl

/-- **What follows `--`** are expressions. -/
theorem readFrom_append (h : arguments.readFrom options = .ok (.calculate arguments'))
    (hdashes : "--" ∉ options) (expressions : List String) :
    arguments.readFrom (options ++ "--" :: expressions) =
      .ok (.calculate { arguments' with
        expressions := arguments'.expressions ++ expressions }) := by
  induction arguments, options using readFrom.induct with
  | case1 arguments =>
    cases h
    rfl
  | case2 arguments rest => exact absurd (List.mem_cons_self ..) hdashes
  | case3 | case4 | case5 => cases h
  | case6 arguments level rest hlevel =>
    rw [readFrom, if_pos hlevel] at h
    cases h
  | case7 arguments level rest hlevel ih =>
    rw [readFrom, if_neg hlevel] at h
    rw [List.cons_append, List.cons_append, readFrom, if_neg hlevel]
    obtain ⟨set, hset, hrest⟩ := exists_of_bind h
    rw [hset]
    exact ih set hrest fun hmem => hdashes (by simp [hmem])
  | case8 arguments argument rest hdash hversion hv hlast hlevel level hattached ih =>
    have hlevel := ne_logLevel hlast hlevel
    rw [readFrom_cons hdash hversion hv hlevel, hattached] at h
    rw [List.cons_append, readFrom_cons hdash hversion hv hlevel, hattached]
    obtain ⟨set, hset, hrest⟩ := exists_of_bind h
    simp only [hset]
    exact ih set hrest fun hmem => hdashes (by simp [hmem])
  | case9 arguments argument rest hdash hversion hv hlast hlevel hattached hoption =>
    have hlevel := ne_logLevel hlast hlevel
    rw [readFrom_cons hdash hversion hv hlevel, hattached] at h
    simp only [hoption, if_true] at h
    cases h
  | case10 arguments argument rest hdash hversion hv hlast hlevel hattached hoption ih =>
    have hlevel := ne_logLevel hlast hlevel
    rw [readFrom_cons hdash hversion hv hlevel, hattached] at h
    rw [List.cons_append, readFrom_cons hdash hversion hv hlevel, hattached]
    simp only [hoption] at h ⊢
    exact ih h fun hmem => hdashes (by simp [hmem])

end Program.Arguments

/-! ## Runs -/

namespace Program

open Shell (Event Leads unlines report unlines_report_quit expressionPrompt showBatch stdout stderr)
open Text (Line utf8 IsLine)

variable {options expressions before : List String} {level? : Option String}
  {beforeEvents : List Event} {calculator : Calculator}

/-- Expressions among the arguments are the whole program. -/
theorem events_listed (hoptions : Arguments.read options = .ok (.calculate ⟨level?, []⟩))
    (hdashes : "--" ∉ options) (hne : expressions ≠ []) (input : List UInt8) :
    events (options ++ "--" :: expressions) input = ⟨0, (showBatch {} expressions).2⟩ := by
  have hread := Arguments.readFrom_append hoptions hdashes expressions
  obtain ⟨expression, expressions, rfl⟩ := List.exists_cons_of_ne_nil hne
  rw [events, Arguments.read, hread]
  rfl

theorem isLine_batch : IsLine "batch" :=
  ⟨by decide, by decide⟩

theorem isLine_empty : IsLine "" :=
  ⟨by decide, by decide⟩

/-- The lines of a dialogue that come before a batch, and those of the batch. -/
theorem all_typed (hexpressions : ∀ expression ∈ expressions, IsLine expression)
    (before : List String) (rest : List UInt8) :
    Line.all (utf8 (unlines (before ++ "batch" :: (expressions ++ [""]))) ++ rest) =
      Line.all (utf8 (unlines before)) ++
        (.text "batch" :: (expressions.map .text ++ [.text ""])) ++ Line.all rest := by
  have hlines : ∀ text ∈ "batch" :: (expressions ++ [""]), IsLine text := by
    intro text h
    rcases List.mem_cons.1 h with rfl | h
    · exact isLine_batch
    rcases List.mem_append.1 h with h | h
    · exact hexpressions text h
    · rw [List.mem_singleton.1 h]
      exact isLine_empty
  have happend : unlines (before ++ "batch" :: (expressions ++ [""])) =
      unlines before ++ unlines ("batch" :: (expressions ++ [""])) := by
    rw [unlines, List.map_append, String.join_append, unlines, unlines]
  rw [Line.all_unlines_append, happend, Text.utf8_append, Line.all_unlines_append,
    Line.all_unlines hlines, List.map_cons, List.map_append]
  rfl

/-- A dialogue in which a batch is typed in. -/
theorem events_typed (hoptions : Arguments.read options = .ok (.calculate ⟨level?, []⟩))
    (hne : expressions ≠ [])
    (hexpressions : ∀ expression ∈ expressions, expression ≠ "" ∧ IsLine expression)
    (hbefore : Leads {} (Line.all (utf8 (unlines before))) beforeEvents { calculator })
    (rest : List UInt8) :
    events options (utf8 (unlines (before ++ "batch" :: (expressions ++ [""]))) ++ rest) =
      (Shell.run { calculator := (calculator.evaluateAll expressions).calculator }
        (Line.all rest)).after
        (.output Shell.welcome :: (beforeEvents ++ .output "\n> " :: .output Shell.batchHeading ::
          ((List.range (expressions.length + 1)).map expressionPrompt ++
            .output "\n" :: (showBatch calculator expressions).2))) := by
  have hbatch := Shell.leads_batch calculator hne fun e he => (hexpressions e he).1
  have hlines := all_typed (fun e he => (hexpressions e he).2) before rest
  exact events_of_leads hoptions (hbefore.append hbatch) hlines

/-- A shell at its main prompt shows it. -/
theorem exists_run_command (calculator : Calculator) (lines : List Line) :
    ∃ later, (Shell.run { calculator } lines).events = .output "\n> " :: later := by
  match lines with
  | [] | .undecodable :: _ => exact ⟨_, rfl⟩
  | .text line :: lines =>
    rw [Shell.run]
    split
    · exact ⟨_, rfl⟩
    · exact ⟨_, rfl⟩

/-- **A batch on the command line and one in a dialogue.**  Given as arguments,
    the expressions are reported, and nothing else happens.  Typed in after any
    lines that have led back to the main prompt, they are asked for and reported
    in the same way, and the main prompt follows.  If the log filter is the same,
    so is what is logged on the batch. -/
theorem run_batch {options options' : List String} {level?' setting? setting?' : Option String}
    (hoptions : Arguments.read options = .ok (.calculate ⟨level?, []⟩)) (hdashes : "--" ∉ options)
    (hoptions' : Arguments.read options' = .ok (.calculate ⟨level?', []⟩))
    (hne : expressions ≠ [])
    (hexpressions : ∀ expression ∈ expressions, expression ≠ "" ∧ IsLine expression)
    (hbefore : Leads {} (Line.all (utf8 (unlines before))) beforeEvents { calculator })
    (input rest : List UInt8) :
    let listed := run (options ++ "--" :: expressions) setting? input
    let typed := run options' setting?'
      (utf8 (unlines (before ++ "batch" :: (expressions ++ [""]))) ++ rest)
    let later := Shell.run { calculator := (calculator.evaluateAll expressions).calculator }
      (Line.all rest)
    listed.exitCode = 0 ∧
    listed.stdout = unlines (report expressions) ∧
    (∀ line ∈ report expressions, '\n' ∉ line.toList) ∧
    typed.exitCode = later.exitCode ∧
    typed.stdout = Shell.welcome ++ stdout beforeEvents ++ "\n> " ++ Shell.batchHeading ++
      String.join ((List.range (expressions.length + 1)).map fun position =>
        s!"Expression {position + 1}: ") ++
      "\n" ++ unlines (report expressions) ++ stdout later.events ∧
    (∃ events, later.events = .output "\n> " :: events) ∧
    (filter setting? level? = filter setting?' level?' →
      typed.stderr = stderr (filter setting?' level?') beforeEvents ++ listed.stderr ++
        stderr (filter setting?' level?') later.events) := by
  have hlisted := events_listed hoptions hdashes hne input
  have htyped := events_typed hoptions' hne hexpressions hbefore rest
  have hread : Arguments.read (options ++ "--" :: expressions) = _ :=
    Arguments.readFrom_append hoptions hdashes expressions
  have hlines := Shell.newline_notMem_report fun e he => (hexpressions e he).2.newline
  refine ⟨?_, ?_, hlines, ?_, ?_, exists_run_command _ _, fun hfilter => ?_⟩
  · rw [run, hlisted]
  · rw [run, hlisted]
    exact Shell.stdout_showBatch_eq _ _
  · rw [run, htyped]
    rfl
  · simp only [run, htyped, Shell.Run.after, Shell.stdout_append, Shell.stdout_cons_output,
      Shell.stdout_showBatch_eq, Shell.stdout_expressionPrompts, String.append_assoc]
  · simp only [run, htyped, hlisted, Shell.Run.after, Shell.stderr_append,
      Shell.stderr_cons_output, Shell.stderr_showBatch, Shell.stderr_expressionPrompts, hoptions',
      hread, logLevel?, hfilter, String.empty_append, String.append_assoc]

/-- In a batch, a command is an expression. -/
theorem run_batch_quit :
    (run ["--", "q"] (some "debug") []).stdout = "Calculation Results:\n1. q = Error\n" ∧
    (run ["--log-level=debug"] none (utf8 "s\nbatch\nq\n\nq\n")).stdout =
      Shell.welcome ++ "\n> Stack is empty\n\n> " ++ Shell.batchHeading ++
        "Expression 1: Expression 2: \nCalculation Results:\n1. q = Error\n\n> Goodbye!\n" ∧
    (run ["--log-level=debug"] none (utf8 "s\nbatch\nq\n\nq\n")).stderr =
      (run ["--", "q"] (some "debug") []).stderr := by
  have hline : ∀ text, '\n' ∉ text.toList → text.toList.getLast? ≠ some '\r' →
      Line.all (utf8 (unlines [text])) = [.text text] := fun text h h' =>
    Line.all_unlines (List.forall_mem_singleton.2 ⟨h, h'⟩)
  have hbefore : Leads {} (Line.all (utf8 (unlines ["s"])))
      [.output "\n> ", .output "Stack is empty\n"] {} := by
    rw [hline "s" (by decide) (by decide)]
    exact Shell.leads_of_reply rfl
  have hrest : Line.all (utf8 "q\n") = [.text "q"] := hline "q" (by decide) (by decide)
  have hinput : utf8 "s\nbatch\nq\n\nq\n" =
      utf8 (unlines (["s"] ++ "batch" :: (["q"] ++ [""]))) ++ utf8 "q\n" := by decide +kernel
  obtain ⟨-, hlisted, -, -, htyped, -, hlog⟩ :=
    @run_batch ["q"] ["s"] none _ {} [] ["--log-level=debug"] (some "debug") (some "debug") none
      rfl (by decide) rfl (List.cons_ne_nil "q" [])
      (List.forall_mem_singleton.2 ⟨by decide, by decide, by decide⟩) hbefore [] (utf8 "q\n")
  have hquit : ∀ calculator : Calculator, (Shell.run { calculator } [.text "q"]).events =
      [.output "\n> ", .output Shell.goodbye] := fun _ => rfl
  have hunlogged : ∀ filter text text', stderr filter [.output text, .output text'] = "" :=
    fun filter text text' => Shell.stderr_map_output filter [text, text']
  rw [← hinput, hrest, hquit] at htyped hlog
  rw [unlines_report_quit] at hlisted htyped
  refine ⟨hlisted, htyped.trans (by decide +kernel), (hlog rfl).trans ?_⟩
  rw [hunlogged, hunlogged, String.empty_append, String.append_empty]
  rfl

end Program

end ReversePolish

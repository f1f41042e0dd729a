/-
  Parts of dialogues: where lines lead a shell.

  * `Shell.next_reply_eq_none_iff`: when a dialogue ends, `Shell.reply_collecting`:
    how a batch comes to be collected;
  * `Shell.Leads`: the shell answers lines with events, and goes on;
  * `Leads.run`: what such lines add to a dialogue;
  * `Shell.leads_collecting`: lines that are not empty are collected, one for
    each prompt;
  * `Shell.leads_batch`: the dialogue on a whole batch.
-/
import ReversePolish.Proofs.Output
import ReversePolish.Shell.Basic

namespace ReversePolish.Shell

open Text (Line)

variable {shell later later' last : Shell} {line : String} {lines lines' : List Line}
  {events events' : List Event}

/-! ## Answers -/

theorem Command.ofLine_eq_quit_iff :
    Command.ofLine line = .quit ↔ Text.trim line = "q" ∨ Text.trim line = "quit" := by
  unfold Command.ofLine
  split <;> simp_all

theorem Command.trim_of_batch (h : Command.ofLine line = .batch) : Text.trim line = "batch" := by
  unfold Command.ofLine at h
  split at h <;> simp_all

/-- A dialogue goes on after every line but a request to quit. -/
theorem next_reply_eq_none_iff :
    (shell.reply line).next = none ↔ shell.mode = .command ∧ Command.ofLine line = .quit := by
  unfold reply
  split
  · next hmode => cases hcommand : Command.ofLine line <;> simp [obey, hmode]
  · next hmode => split <;> simp [hmode]

/-- A batch is opened, or goes on with one more expression. -/
theorem reply_collecting {calculator : Calculator} {expressions : List String}
    (h : (shell.reply line).next = some ⟨calculator, .collecting expressions⟩) :
    shell.calculator = calculator ∧
      ((shell.mode = .command ∧ Command.ofLine line = .batch ∧ expressions = [] ∧
          (shell.reply line).events = [.output batchHeading]) ∨
        ∃ collected, shell.mode = .collecting collected ∧ expressions = collected ++ [line] ∧
          (shell.reply line).events = []) := by
  unfold reply at h ⊢
  split at h
  · next hmode => cases hcommand : Command.ofLine line <;> simp_all [obey]
  · next collected hmode => split at h <;> simp_all

/-! ## Lines and events -/

/-- The lines lead from `shell` to `later`, with these events, in which each line
    is asked for and answered. -/
inductive Leads : (shell : Shell) → List Line → List Event → (later : Shell) → Prop
  | nil (shell : Shell) : Leads shell [] [] shell
  | cons {shell next later lines events} {line : String} :
      (shell.reply line).next = some next → Leads next lines events later →
      Leads shell (.text line :: lines) (shell.prompt :: (shell.reply line).events ++ events) later

theorem Leads.append (h : Leads shell lines events later) (h' : Leads later lines' events' last) :
    Leads shell (lines ++ lines') (events ++ events') last := by
  induction h with
  | nil => exact h'
  | cons hreply _ ih =>
    rw [List.append_assoc, List.cons_append]
    exact .cons hreply (ih h')

/-- There is one way for lines to be answered. -/
theorem Leads.unique (h : Leads shell lines events later) (h' : Leads shell lines events' later') :
    events = events' ∧ later = later' := by
  induction h generalizing events' later' with
  | nil =>
    cases h'
    exact ⟨rfl, rfl⟩
  | cons hreply _ ih =>
    cases h' with
    | cons hreply' hrest =>
      obtain rfl := Option.some.inj (hreply.symm.trans hreply')
      obtain ⟨rfl, rfl⟩ := ih hrest
      exact ⟨rfl, rfl⟩

/-- The last of several lines is answered where the lines before it have led. -/
theorem Leads.exists_concat (h : Leads shell (lines ++ [.text line]) events later) :
    ∃ before between, Leads shell lines before between ∧
      (between.reply line).next = some later ∧
      events = before ++ between.prompt :: (between.reply line).events := by
  induction lines generalizing shell events with
  | nil =>
    cases h with
    | cons hreply hrest =>
      cases hrest
      exact ⟨[], shell, .nil shell, hreply, by simp⟩
  | cons first lines ih =>
    cases h with
    | cons hreply hrest =>
      obtain ⟨before, between, hbefore, hnext, rfl⟩ := ih hrest
      exact ⟨_, between, .cons hreply hbefore, hnext, by simp⟩

@[simp] theorem Run.after_after (run : Run) (events events' : List Event) :
    (run.after events').after events = run.after (events ++ events') := by
  simp [Run.after]

/-- **The dialogue goes on** where its first lines have led. -/
theorem Leads.run (h : Leads shell lines events later) (rest : List Line) :
    shell.run (lines ++ rest) = (later.run rest).after events := by
  induction h with
  | nil shell => rfl
  | cons hreply _ ih =>
    rw [List.cons_append, Shell.run]
    simp only [hreply, ih, Run.after_after]

theorem leads_of_reply (h : shell.reply line = ⟨events, some later⟩) :
    Leads shell [.text line] (shell.prompt :: events) later := by
  have hleads := Leads.cons (congrArg Reply.next h) (.nil later)
  rwa [h, List.append_nil] at hleads

/-! ## Batches -/

/-- What asks for the expression at `position`, counted from `0`. -/
def expressionPrompt (position : Nat) : Event :=
  .output s!"Expression {position + 1}: "

theorem stdout_expressionPrompts (count : Nat) :
    stdout ((List.range count).map expressionPrompt) =
      String.join ((List.range count).map fun position => s!"Expression {position + 1}: ") := by
  rw [← stdout_map_output, List.map_map]
  rfl

theorem stderr_expressionPrompts (filter : Log.Filter) (count : Nat) :
    stderr filter ((List.range count).map expressionPrompt) = "" := by
  rw [← stderr_map_output filter ((List.range count).map fun position =>
    s!"Expression {position + 1}: "), List.map_map]
  rfl

/-- A line that is not empty is collected. -/
theorem leads_line (calculator : Calculator) (collected : List String) (h : line ≠ "") :
    Leads ⟨calculator, .collecting collected⟩ [.text line] [expressionPrompt collected.length]
      ⟨calculator, .collecting (collected ++ [line])⟩ :=
  leads_of_reply (if_neg h)

theorem leads_collecting (calculator : Calculator) (collected : List String)
    {expressions : List String} (h : ∀ expression ∈ expressions, expression ≠ "") :
    Leads ⟨calculator, .collecting collected⟩ (expressions.map .text)
      ((List.range' collected.length expressions.length).map expressionPrompt)
      ⟨calculator, .collecting (collected ++ expressions)⟩ := by
  induction expressions generalizing collected with
  | nil =>
    rw [List.append_nil]
    exact .nil _
  | cons expression expressions ih =>
    have hline := leads_line calculator collected (h expression (by simp))
    have hrest := ih (collected ++ [expression]) fun e he => h e (by simp [he])
    rw [List.length_append, List.append_assoc] at hrest
    exact hline.append hrest

/-- An empty line closes the batch. -/
theorem leads_empty (calculator : Calculator) {expressions : List String} (h : expressions ≠ []) :
    Leads ⟨calculator, .collecting expressions⟩ [.text ""]
      (expressionPrompt expressions.length :: .output "\n" :: (showBatch calculator expressions).2)
      { calculator := (showBatch calculator expressions).1 } := by
  obtain ⟨expression, expressions, rfl⟩ := List.exists_cons_of_ne_nil h
  exact leads_of_reply rfl

/-- **The dialogue on a batch**: its heading, a prompt for each expression and
    for the empty line, and what is shown of it. -/
theorem leads_batch (calculator : Calculator) {expressions : List String} (hne : expressions ≠ [])
    (h : ∀ expression ∈ expressions, expression ≠ "") :
    Leads { calculator } (.text "batch" :: (expressions.map .text ++ [.text ""]))
      (.output "\n> " :: .output batchHeading ::
        ((List.range (expressions.length + 1)).map expressionPrompt ++
          .output "\n" :: (showBatch calculator expressions).2))
      { calculator := (showBatch calculator expressions).1 } := by
  have hopened : Leads { calculator } [.text "batch"] [.output "\n> ", .output batchHeading]
      ⟨calculator, .collecting []⟩ := leads_of_reply rfl
  have hcollected := leads_collecting calculator [] h
  have hleads := hopened.append (hcollected.append (leads_empty calculator hne))
  rw [List.range_succ, List.map_append, List.append_assoc, List.range_eq_range']
  exact hleads

end ReversePolish.Shell

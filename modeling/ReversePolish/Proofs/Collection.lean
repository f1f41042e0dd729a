/-
  The collection of a batch.

  * `Shell.collect`: the collection by itself, with its prompts, its expressions, and
    the lines that it leaves;
  * `Shell.Collects` and `Shell.collects_iff`: it takes the lines up to the first empty
    one, or up to the end of the input; with a line that cannot be decoded it fails;
  * `Shell.run_collecting`: a shell that collects a batch reads its lines in this way,
    and the main prompt goes on with the lines that are left.
-/
import ReversePolish.Proofs.Ending

namespace ReversePolish.Shell

open Text (Line)

variable {expressions : List String} {lines : List Line}

/-- What the collection of a batch comes to. -/
structure Collection where
  prompts : List Event
  /-- The expressions, or what is said of a line that cannot be decoded. -/
  result : Except String (List String)
  /-- The lines that are left. -/
  rest : List Line

/-- The collection of a batch, after the expressions collected so far. -/
def collect (collected : List String) : List Line → Collection
  | [] => ⟨[expressionPrompt collected.length], .ok collected, []⟩
  | .undecodable :: rest =>
    ⟨[expressionPrompt collected.length], .error undecodableInput, rest⟩
  | .text line :: rest =>
    if line = "" then ⟨[expressionPrompt collected.length], .ok collected, rest⟩
    else
      let later := collect (collected ++ [line]) rest
      { later with prompts := expressionPrompt collected.length :: later.prompts }

/-! ## The dialogue on a batch -/

/-- The dialogue after a collection: the batch is closed, and the main prompt shown
    for the lines that are left.  A collection that has failed ends it. -/
def Collection.resume (calculator : Calculator) (collection : Collection) : Run :=
  match collection.result with
  | .ok expressions =>
    let (calculator, events) := closeBatch calculator expressions
    (Shell.run { calculator } collection.rest).after (collection.prompts ++ events)
  | .error message => ⟨1, collection.prompts ++ [.complaint message]⟩

/-- What is shown before a collection is shown before the dialogue on it. -/
theorem Collection.resume_append (calculator : Calculator) (collection : Collection)
    (before : List Event) :
    Collection.resume calculator { collection with prompts := before ++ collection.prompts } =
      (collection.resume calculator).after before := by
  obtain ⟨prompts, message | expressions, rest⟩ := collection <;> simp [resume, Run.after]

/-- **A shell that collects a batch** does what the collection comes to. -/
theorem run_collecting (calculator : Calculator) (collected : List String) (lines : List Line) :
    Shell.run ⟨calculator, .collecting collected⟩ lines =
      (collect collected lines).resume calculator := by
  induction lines generalizing collected with
  | nil => exact run_collecting_nil calculator collected
  | cons line rest ih =>
    cases line with
    | undecodable => rfl
    | text line =>
      by_cases hempty : line = ""
      · subst hempty
        exact run_close calculator collected rest
      · have hrest := (leads_line calculator collected hempty).run rest
        rw [ih, ← Collection.resume_append] at hrest
        rw [collect, if_neg hempty]
        exact hrest

/-! ## What a collection comes to -/

/-- The prompts of a batch: one for each expression, and one for what comes after the
    last of them. -/
def promptsOf (expressions : List String) : List Event :=
  (List.range (expressions.length + 1)).map expressionPrompt

/-- The lines up to the first empty one are the expressions, as they are.  The end of
    the input is as good as an empty line; with a line that cannot be decoded there are
    no expressions. -/
inductive Collects : List Line → Collection → Prop
  | emptyLine {expressions : List String}
      (filled : ∀ expression ∈ expressions, expression ≠ "") (rest : List Line) :
      Collects (expressions.map .text ++ .text "" :: rest)
        ⟨promptsOf expressions, .ok expressions, rest⟩
  | endOfInput {expressions : List String}
      (filled : ∀ expression ∈ expressions, expression ≠ "") :
      Collects (expressions.map .text) ⟨promptsOf expressions, .ok expressions, []⟩
  | undecodable {expressions : List String}
      (filled : ∀ expression ∈ expressions, expression ≠ "") (rest : List Line) :
      Collects (expressions.map .text ++ .undecodable :: rest)
        ⟨promptsOf expressions, .error undecodableInput, rest⟩

/-- Lines that are not empty are collected, one for each prompt. -/
theorem collect_append (collected : List String)
    (filled : ∀ expression ∈ expressions, expression ≠ "") (rest : List Line) :
    collect collected (expressions.map .text ++ rest) =
      let later := collect (collected ++ expressions) rest
      { later with
        prompts := (List.range' collected.length expressions.length).map expressionPrompt ++
          later.prompts } := by
  induction expressions generalizing collected with
  | nil => simp
  | cons expression expressions ih =>
    have hempty : expression ≠ "" := filled expression (by simp)
    have hrest := ih (collected ++ [expression]) fun e he => filled e (by simp [he])
    simp [collect, hempty, hrest, List.range'_succ]

theorem promptsOf_eq (expressions : List String) :
    (List.range' 0 expressions.length).map expressionPrompt ++
      [expressionPrompt expressions.length] = promptsOf expressions := by
  rw [promptsOf, List.range_succ, List.map_append, List.range_eq_range']
  rfl

theorem Collects.collect_eq {collection : Collection} (h : Collects lines collection) :
    collect [] lines = collection := by
  cases h with
  | emptyLine filled rest | undecodable filled rest =>
    rw [collect_append [] filled]
    simp [collect, promptsOf_eq]
  | endOfInput filled =>
    have hcollect := collect_append [] filled []
    rw [List.append_nil] at hcollect
    rw [hcollect]
    simp [collect, promptsOf_eq]

/-- Lines begin with expressions.  What comes after them is none. -/
theorem exists_expressions (lines : List Line) :
    ∃ (expressions : List String) (after : List Line),
      (∀ expression ∈ expressions, expression ≠ "") ∧ lines = expressions.map .text ++ after ∧
      (after = [] ∨ (∃ rest, after = .text "" :: rest) ∨
        ∃ rest, after = .undecodable :: rest) := by
  induction lines with
  | nil => exact ⟨[], [], by simp, rfl, .inl rfl⟩
  | cons line rest ih =>
    cases line with
    | undecodable => exact ⟨[], _, by simp, rfl, .inr (.inr ⟨rest, rfl⟩)⟩
    | text line =>
      by_cases hempty : line = ""
      · subst hempty
        exact ⟨[], _, by simp, rfl, .inr (.inl ⟨rest, rfl⟩)⟩
      · obtain ⟨expressions, after, filled, rfl, hafter⟩ := ih
        exact ⟨line :: expressions, after, by simpa [hempty] using filled, rfl, hafter⟩

theorem collects_collect (lines : List Line) : Collects lines (collect [] lines) := by
  obtain ⟨expressions, after, filled, rfl, rfl | ⟨rest, rfl⟩ | ⟨rest, rfl⟩⟩ :=
    exists_expressions lines
  · rw [List.append_nil, (Collects.endOfInput filled).collect_eq]
    exact .endOfInput filled
  · rw [(Collects.emptyLine filled rest).collect_eq]
    exact .emptyLine filled rest
  · rw [(Collects.undecodable filled rest).collect_eq]
    exact .undecodable filled rest

/-- **The collection of a batch** takes the lines up to the first empty one. -/
theorem collects_iff {collection : Collection} :
    Collects lines collection ↔ collect [] lines = collection := by
  constructor
  · exact Collects.collect_eq
  · rintro rfl
    exact collects_collect lines

end ReversePolish.Shell

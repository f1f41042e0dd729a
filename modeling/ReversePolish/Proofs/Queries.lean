/-
  Queries: lines that ask about a session and leave it as it is.

  * `Shell.IsQuery` are the queries, `Shell.answer` is what they are answered;
  * `Shell.turns`: a dialogue as its turns, each a prompt and an answer;
  * `Shell.AsksAt`: a line that is a query and is read at the main prompt;
  * `Shell.turns_without`: without some of these lines, a dialogue has the same
    turns, but for theirs;
  * `Program.Result.Inserts` and `Program.OmitsQueries`: what one query adds to a
    run, and what remains of a run without some of its queries;
  * `Program.run_queries`: what the program shows with queries and without them.
-/
import ReversePolish.Proofs.Lines
import ReversePolish.Proofs.Run

namespace ReversePolish

open Text (Line)

namespace Shell

variable {shell next : Shell} {line : String} {lines : List Line} {events : List Event}
  {calculator : Calculator} {position : Nat}

/-! ## Queries -/

/-- The words of the queries.  A blank line asks for nothing. -/
def queryWords : List String :=
  ["", "s", "stack", "h", "history", "help"]

/-- The line is a query, at the main prompt. -/
def IsQuery (line : String) : Prop :=
  Text.trim line ∈ queryWords

instance (line : String) : Decidable (IsQuery line) :=
  inferInstanceAs (Decidable (_ ∈ queryWords))

/-- What a query is answered. -/
def answer (calculator : Calculator) (line : String) : String :=
  match Text.trim line with
  | "s" | "stack" => calculator.stackText ++ "\n"
  | "h" | "history" => tapeText calculator
  | "help" => help
  | _ => ""

/-- **A query** is answered on the standard output, and leaves the shell as it is. -/
theorem IsQuery.exists_reply (h : IsQuery line) (calculator : Calculator) :
    ∃ texts : List String, String.join texts = answer calculator line ∧
      Shell.reply { calculator } line = ⟨texts.map .output, some { calculator }⟩ := by
  have hreply : Shell.reply { calculator } line = obey calculator (.ofLine line) := rfl
  rw [hreply, Command.ofLine, answer]
  simp only [IsQuery, queryWords, List.mem_cons, List.not_mem_nil, or_false] at h
  rcases h with h | h | h | h | h | h <;> rw [h]
  · exact ⟨[], rfl, rfl⟩
  · exact ⟨[calculator.stackText ++ "\n"], by simp, rfl⟩
  · exact ⟨[calculator.stackText ++ "\n"], by simp, rfl⟩
  · exact ⟨[tapeText calculator], by simp, rfl⟩
  · exact ⟨[tapeText calculator], by simp, rfl⟩
  · exact ⟨[help], by simp, rfl⟩

/-! ## Turns -/

/-- The turns of a dialogue: for each line that is read, and for the end of the
    input, the prompt and what follows it. -/
def turns (shell : Shell) : List Line → List (List Event)
  | [] => [shell.prompt :: shell.finish]
  | .undecodable :: _ => [[shell.prompt, .complaint undecodableInput]]
  | .text line :: lines =>
    let reply := shell.reply line
    (shell.prompt :: reply.events) ::
      match reply.next with
      | none => []
      | some next => next.turns lines

theorem events_run (shell : Shell) (lines : List Line) :
    (shell.run lines).events = (shell.turns lines).flatten := by
  induction lines generalizing shell with
  | nil => simp [run, turns]
  | cons line lines ih =>
    cases line with
    | undecodable => simp [run, turns]
    | text line =>
      rw [run, turns]
      cases hnext : (shell.reply line).next with
      | none => simp
      | some next => simp [Run.after, ih]

/-! ## Positions -/

/-- The elements of a list, but for those at the positions that are left out. -/
def without {α : Type} (omitted : Nat → Bool) : List α → List α
  | [] => []
  | x :: xs =>
    let rest := without (fun position => omitted (position + 1)) xs
    if omitted 0 then rest else x :: rest

/-- Texts with nothing in them can be left out. -/
theorem join_map_without {α : Type} (text : α → String) {omitted : Nat → Bool} {xs : List α}
    (h : ∀ position x, omitted position = true → xs[position]? = some x → text x = "") :
    String.join ((without omitted xs).map text) = String.join (xs.map text) := by
  induction xs generalizing omitted with
  | nil => rfl
  | cons x xs ih =>
    have hrest := ih fun position y homitted hy => h (position + 1) y homitted hy
    by_cases homitted : omitted 0 = true
    · simp [without, homitted, hrest, h 0 x homitted rfl]
    · simp [without, homitted, hrest]

/-- The line at this position is a query, and it is read at the main prompt. -/
def AsksAt (shell : Shell) (lines : List Line) (position : Nat) : Prop :=
  ∃ line events calculator, lines[position]? = some (.text line) ∧ IsQuery line ∧
    Leads shell (lines.take position) events { calculator }

theorem AsksAt.exists_head {line : Line} (h : AsksAt shell (line :: lines) 0) :
    ∃ text calculator, line = .text text ∧ IsQuery text ∧ shell = { calculator } := by
  obtain ⟨text, events, calculator, hline, hquery, hleads⟩ := h
  cases hline
  cases hleads
  exact ⟨text, calculator, rfl, hquery, rfl⟩

/-- What comes after a line is asked where the line has led. -/
theorem AsksAt.tail {line : Line} (h : AsksAt shell (line :: lines) (position + 1)) :
    ∃ text next, line = .text text ∧ (shell.reply text).next = some next ∧
      AsksAt next lines position := by
  obtain ⟨query, events, calculator, hline, hquery, hleads⟩ := h
  cases hleads with
  | cons hreply hrest => exact ⟨_, _, rfl, hreply, query, _, calculator, hline, hquery, hrest⟩

/-- **Queries left out.**  The lines that remain have the same turns as before, and
    the dialogue has the same end. -/
theorem turns_without {omitted : Nat → Bool}
    (h : ∀ position, omitted position = true → AsksAt shell lines position) :
    shell.turns (without omitted lines) = without omitted (shell.turns lines) ∧
      (shell.run (without omitted lines)).exitCode = (shell.run lines).exitCode := by
  induction lines generalizing shell omitted with
  | nil =>
    have hkept : ¬ omitted 0 = true := by
      intro homitted
      obtain ⟨_, _, _, hline, -⟩ := h 0 homitted
      cases hline
    simp [without, turns, hkept]
  | cons line lines ih =>
    have htail : ∀ text next, line = .text text → (shell.reply text).next = some next →
        ∀ position, omitted (position + 1) = true → AsksAt next lines position := by
      rintro text next rfl hreply position homitted
      obtain ⟨text', next', heq, hreply', hasks⟩ := (h (position + 1) homitted).tail
      cases heq
      cases hreply.symm.trans hreply'
      exact hasks
    by_cases homitted : omitted 0 = true
    · -- the query has its turn, and the shell stays as it is
      obtain ⟨text, calculator, rfl, hquery, rfl⟩ := (h 0 homitted).exists_head
      obtain ⟨texts, -, hreply⟩ := hquery.exists_reply calculator
      have hrest := ih (htail text { calculator } rfl (congrArg Reply.next hreply))
      simpa [without, turns, run, homitted, hreply, Run.after] using hrest
    · cases line with
      | undecodable => simp [without, turns, run, homitted]
      | text text =>
        cases hnext : (shell.reply text).next with
        | none => simp [without, turns, run, homitted, hnext]
        | some next =>
          have hrest := ih (htail text next rfl hnext)
          simpa [without, turns, run, homitted, hnext, Run.after] using hrest

/-- Lines have turns of their own, whatever comes after them. -/
theorem Leads.exists_turns {later : Shell} (h : Leads shell lines events later) :
    ∃ before, before.length = lines.length ∧
      ∀ rest, shell.turns (lines ++ rest) = before ++ later.turns rest := by
  induction h with
  | nil shell => exact ⟨[], rfl, fun rest => rfl⟩
  | @cons shell next later lines events line hreply _ ih =>
    obtain ⟨before, hlength, hturns⟩ := ih
    refine ⟨(shell.prompt :: (shell.reply line).events) :: before, by simp [hlength], ?_⟩
    intro rest
    rw [List.cons_append, turns]
    simp [hreply, hturns]

/-- The turn of a query. -/
theorem exists_turn (hline : lines[position]? = some (.text line)) (hquery : IsQuery line)
    (hleads : Leads shell (lines.take position) events { calculator }) :
    ∃ texts : List String, String.join texts = answer calculator line ∧
      (shell.turns lines)[position]? = some (("\n> " :: texts).map .output) := by
  obtain ⟨texts, htexts, hreply⟩ := hquery.exists_reply calculator
  obtain ⟨before, hlength, hturns⟩ := hleads.exists_turns
  obtain ⟨hposition, hget⟩ := List.getElem?_eq_some_iff.1 hline
  have hsplit : lines = lines.take position ++ .text line :: lines.drop (position + 1) := by
    rw [← hget, List.getElem_cons_drop, List.take_append_drop]
  have hbefore : before.length = position := by
    rw [hlength, List.length_take]
    omega
  refine ⟨texts, htexts, ?_⟩
  rw [hsplit, hturns, List.getElem?_append_right (Nat.le_of_eq hbefore), hbefore, Nat.sub_self,
    turns]
  simp [hreply, prompt]

/-- Nothing but answers on the standard output is left out with the queries. -/
theorem stderr_turns_without (filter : Log.Filter) {omitted : Nat → Bool}
    (h : ∀ position, omitted position = true → AsksAt shell lines position) :
    stderr filter (without omitted (shell.turns lines)).flatten =
      stderr filter (shell.turns lines).flatten := by
  rw [stderr_flatten, stderr_flatten]
  refine join_map_without _ fun position turn homitted hturn => ?_
  obtain ⟨line, events, calculator, hline, hquery, hleads⟩ := h position homitted
  obtain ⟨texts, -, hturn'⟩ := exists_turn hline hquery hleads
  obtain rfl := Option.some.inj (hturn.symm.trans hturn')
  exact stderr_map_output filter _

end Shell

/-! ## Runs -/

namespace Program

open Shell (Event Leads IsQuery AsksAt answer turns without stdout)
open Text (utf8)

variable {options : List String} {level? : Option String}

/-- One result has a block in its standard output, after a text, that the other one
    does not have.  Else they are the same. -/
structure Result.Inserts (before block : String) (unasked asked : Result) : Prop where
  exitCode : asked.exitCode = unasked.exitCode
  stderr : asked.stderr = unasked.stderr
  stdout : ∃ rest, unasked.stdout = before ++ rest ∧ asked.stdout = before ++ block ++ rest

theorem inserts_of_query {before later : List Line} {line : String} {shown : List Event}
    {calculator : Calculator} {asked unasked : List UInt8}
    (hoptions : Arguments.read options = .ok (.calculate ⟨level?, []⟩))
    (hleads : Leads {} before shown { calculator }) (hquery : IsQuery line)
    (hasked : Line.all asked = before ++ .text line :: later)
    (hunasked : Line.all unasked = before ++ later) (setting? : Option String) :
    Result.Inserts (Shell.welcome ++ stdout shown) ("\n> " ++ answer calculator line)
      (run options setting? unasked) (run options setting? asked) := by
  obtain ⟨texts, htexts, hreply⟩ := hquery.exists_reply calculator
  have hline : Leads {} (before ++ [.text line])
      (shown ++ ("\n> " :: texts).map .output) { calculator } :=
    hleads.append (Shell.leads_of_reply hreply)
  have hasked' : Line.all asked = before ++ [.text line] ++ later := by
    rw [hasked, List.append_assoc]
    rfl
  rw [run_of_leads hoptions hleads hunasked, run_of_leads hoptions hline hasked']
  refine ⟨rfl, ?_, stdout (Shell.run { calculator } later).events, rfl, ?_⟩
  · simp only [Shell.stderr_append, Shell.stderr_map_output, String.append_empty]
  · simp only [Shell.stdout_append, Shell.stdout_map_output, String.join_cons, htexts,
      String.append_assoc]

/-- The program does the same on the lines of one input, in which queries at some
    positions are left out, as on those of the other. -/
structure OmitsQueries (options : List String) (setting? : Option String)
    (omitted : Nat → Bool) (asked unasked : List UInt8) : Prop where
  exitCode : (run options setting? unasked).exitCode = (run options setting? asked).exitCode
  stderr : (run options setting? unasked).stderr = (run options setting? asked).stderr
  turns : (events options asked).events =
    .output Shell.welcome :: (turns {} (Line.all asked)).flatten
  /-- The lines that remain have the turns that they had before. -/
  without_turns : (events options unasked).events =
    .output Shell.welcome :: (without omitted (Shell.turns {} (Line.all asked))).flatten
  /-- The other turns are those of the queries. -/
  turn : ∀ position, omitted position = true →
    ∃ line shown calculator texts, (Line.all asked)[position]? = some (.text line) ∧
      Leads {} ((Line.all asked).take position) shown { calculator } ∧
      String.join texts = answer calculator line ∧
      (Shell.turns {} (Line.all asked))[position]? = some (("\n> " :: texts).map .output)

theorem omitsQueries {omitted : Nat → Bool} {asked unasked : List UInt8}
    (hoptions : Arguments.read options = .ok (.calculate ⟨level?, []⟩))
    (hasks : ∀ position, omitted position = true → AsksAt {} (Line.all asked) position)
    (hunasked : Line.all unasked = without omitted (Line.all asked)) (setting? : Option String) :
    OmitsQueries options setting? omitted asked unasked := by
  obtain ⟨hturns, hexit⟩ := Shell.turns_without hasks
  have hevents : ∀ input, (events options input).events =
      .output Shell.welcome :: (turns {} (Line.all input)).flatten := by
    intro input
    rw [events_dialogue hoptions, ← Shell.events_run]
    rfl
  have hcode : ∀ input, (run options setting? input).exitCode =
      (Shell.run {} (Line.all input)).exitCode := by
    intro input
    rw [run, events_dialogue hoptions]
    rfl
  refine ⟨?_, ?_, hevents asked, ?_, ?_⟩
  · rw [hcode, hcode, hunasked, hexit]
  · simp only [run, hevents, hunasked, hturns, Shell.stderr_cons_output,
      Shell.stderr_turns_without _ hasks]
  · rw [hevents, hunasked, hturns]
  · intro position homitted
    obtain ⟨line, shown, calculator, hline, hquery, hleads⟩ := hasks position homitted
    obtain ⟨texts, htexts, hturn⟩ := Shell.exists_turn hline hquery hleads
    exact ⟨line, shown, calculator, texts, hline, hleads, htexts, hturn⟩

/-- **Queries do not disturb a session.**  With one more query at the main prompt,
    the program shows the prompt and the answer in addition, and nothing else is
    different.  Without any of its queries, the lines that remain have the turns
    that they had before. -/
theorem run_queries (hoptions : Arguments.read options = .ok (.calculate ⟨level?, []⟩))
    (setting? : Option String) :
    (∀ before line later shown calculator asked unasked,
      Leads {} before shown { calculator } → IsQuery line →
      Line.all asked = before ++ .text line :: later → Line.all unasked = before ++ later →
      Result.Inserts (Shell.welcome ++ stdout shown) ("\n> " ++ answer calculator line)
        (run options setting? unasked) (run options setting? asked)) ∧
    ∀ omitted asked unasked,
      (∀ position, omitted position = true → AsksAt {} (Line.all asked) position) →
      Line.all unasked = without omitted (Line.all asked) →
      OmitsQueries options setting? omitted asked unasked := by
  constructor
  · intro before line later shown calculator asked unasked hleads hquery hasked hunasked
    exact inserts_of_query hoptions hleads hquery hasked hunasked setting?
  · intro omitted asked unasked hasks hunasked
    exact omitsQueries hoptions hasks hunasked setting?

/-- The stack is asked for at the main prompt; in the batch, the same word is an
    expression.  Of three lines, the first and the last one are left out. -/
theorem run_queries_stack :
    let asked := run [] none (utf8 "c\n s \nbatch\ns\n\n")
    let unasked := run [] none (utf8 "c\nbatch\ns\n\n")
    asked.exitCode = unasked.exitCode ∧ asked.stderr = unasked.stderr ∧
    (∃ rest, unasked.stdout = Shell.welcome ++ "\n> Stack cleared\n" ++ rest ∧
      asked.stdout =
        Shell.welcome ++ "\n> Stack cleared\n" ++ "\n> Stack is empty\n" ++ rest) ∧
    (run [] none (utf8 "c\n")).stderr = (run [] none (utf8 "h\nc\nhelp\n")).stderr := by
  intro asked unasked
  have hoptions : Arguments.read [] = .ok (.calculate ⟨none, []⟩) := rfl
  obtain ⟨hone, hseveral⟩ := run_queries hoptions none
  have hcleared : Leads {} [.text "c"] [.output "\n> ", .output "Stack cleared\n"] {} :=
    Shell.leads_of_reply rfl
  have hasked : Line.all (utf8 "c\n s \nbatch\ns\n\n") =
      [.text "c"] ++ .text " s " :: [.text "batch", .text "s", .text ""] := by decide +kernel
  have hunasked : Line.all (utf8 "c\nbatch\ns\n\n") =
      [.text "c"] ++ [.text "batch", .text "s", .text ""] := by decide +kernel
  obtain ⟨hexit, hstderr, rest, hunshown, hshown⟩ :=
    hone _ _ _ _ _ _ _ hcleared (by decide +kernel) hasked hunasked
  have hlines : Line.all (utf8 "h\nc\nhelp\n") = [.text "h", .text "c", .text "help"] := by
    decide +kernel
  have hasks : ∀ position, (position == 0 || position == 2) = true →
      AsksAt {} (Line.all (utf8 "h\nc\nhelp\n")) position := by
    intro position hposition
    rw [hlines]
    simp only [Bool.or_eq_true, beq_iff_eq] at hposition
    rcases hposition with rfl | rfl
    · exact ⟨"h", [], {}, rfl, by decide +kernel, .nil {}⟩
    · exact ⟨"help", _, {}, rfl, by decide +kernel,
        (Shell.leads_of_reply rfl).append (Shell.leads_of_reply rfl)⟩
  have homitted := hseveral (fun position => position == 0 || position == 2) _ (utf8 "c\n")
    hasks (by decide +kernel)
  have hbefore : stdout [.output "\n> ", .output "Stack cleared\n"] = "\n> Stack cleared\n" := by
    decide
  have hanswer : "\n> " ++ answer {} " s " = "\n> Stack is empty\n" := by decide +kernel
  rw [hbefore] at hunshown hshown
  rw [hanswer] at hshown
  exact ⟨hexit, hstderr, ⟨rest, hunshown, hshown⟩, homitted.stderr⟩

end Program

end ReversePolish

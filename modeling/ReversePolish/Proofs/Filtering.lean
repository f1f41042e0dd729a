/-
  What a log filter lets through, and what it cannot change.

  * `Filter.Decides`: of the directives about a target, the longest;
  * `Filter.deciding?_eq_some_iff` and `Filter.admits_iff`: it decides;
  * `Shell.reported`: what of a run reaches the standard error output, event by
    event, and `Shell.reported_eq_filter`: a filter picks from what there is;
  * `Program.run_filtered`: the program with different log filters.
-/
import Mathlib.Data.List.Induction
import ReversePolish.Program.Run
import ReversePolish.Proofs.Lines
import ReversePolish.Proofs.Output

namespace ReversePolish

/-! ## Filters -/

namespace Log

variable {filter : Filter} {directive : Directive} {directives : List Directive} {target : String}
  {record : Record}

namespace Filter

/-- The directive is about the target, and no other directive about it has a longer
    text, or the same text and comes later. -/
def Decides (filter : Filter) (directive : Directive) (target : String) : Prop :=
  ∃ earlier later, filter.directives = earlier ++ directive :: later ∧
    directive.covers target = true ∧
    (∀ other ∈ earlier, other.covers target = true →
      other.target.length ≤ directive.target.length) ∧
    ∀ other ∈ later, other.covers target = true →
      other.target.length < directive.target.length

/-- The directive that prevails over those before it. -/
def prevailing (best : Option Directive) (directive : Directive) : Option Directive :=
  if best.all directive.prevails then some directive else best

theorem deciding?_eq (filter : Filter) (target : String) :
    filter.deciding? target =
      (filter.directives.filter (·.covers target)).foldl prevailing none :=
  rfl

/-- What prevails is one of the directives, and they come before it with no longer
    texts, or after it with shorter ones. -/
theorem foldl_prevailing (h : directives ≠ []) :
    ∃ earlier best later, directives = earlier ++ best :: later ∧
      directives.foldl prevailing none = some best ∧
      (∀ other ∈ earlier, other.target.length ≤ best.target.length) ∧
      ∀ other ∈ later, other.target.length < best.target.length := by
  induction directives using List.reverseRecOn with
  | nil => exact absurd rfl h
  | append_singleton directives last ih =>
    rw [List.foldl_append, List.foldl_cons, List.foldl_nil]
    by_cases hnil : directives = []
    · subst hnil
      exact ⟨[], last, [], rfl, rfl, by simp, by simp⟩
    obtain ⟨earlier, best, later, rfl, hbest, hearlier, hlater⟩ := ih hnil
    rw [hbest]
    by_cases hlength : best.target.length ≤ last.target.length
    · refine ⟨earlier ++ best :: later, last, [], rfl, ?_, ?_, by simp⟩
      · simp [prevailing, Directive.prevails, hlength]
      · intro other hother
        rcases List.mem_append.1 hother with hother | hother
        · exact Nat.le_trans (hearlier other hother) hlength
        rcases List.mem_cons.1 hother with rfl | hother
        · exact hlength
        · exact Nat.le_trans (Nat.le_of_lt (hlater other hother)) hlength
    · refine ⟨earlier, best, later ++ [last], by simp, ?_, hearlier, ?_⟩
      · simp [prevailing, Directive.prevails, hlength]
      · intro other hother
        rcases List.mem_append.1 hother with hother | hother
        · exact hlater other hother
        · rw [List.mem_singleton.1 hother]
          exact Nat.lt_of_not_le hlength

theorem foldl_prevailing_of_shorter (h : ∀ other ∈ directives,
      other.target.length < directive.target.length) :
    directives.foldl prevailing (some directive) = some directive := by
  induction directives with
  | nil => rfl
  | cons other directives ih =>
    have hother : ¬ directive.target.length ≤ other.target.length :=
      Nat.not_le_of_lt (h other (by simp))
    rw [List.foldl_cons, prevailing, if_neg (by simp [Directive.prevails, hother])]
    exact ih fun other hother => h other (by simp [hother])

theorem foldl_prevailing_of_longer
    (h : ∀ other ∈ directives, other.target.length ≤ directive.target.length) :
    prevailing (directives.foldl prevailing none) directive = some directive := by
  by_cases hnil : directives = []
  · subst hnil
    rfl
  obtain ⟨earlier, best, later, hsplit, hbest, -, -⟩ := foldl_prevailing hnil
  have hlength := h best (by simp [hsplit])
  simp [hbest, prevailing, Directive.prevails, hlength]

/-- **The longest directive** about a target decides. -/
theorem deciding?_eq_some_iff :
    filter.deciding? target = some directive ↔ filter.Decides directive target := by
  rw [deciding?_eq]
  constructor
  · intro hdeciding
    have hne : filter.directives.filter (·.covers target) ≠ [] := by
      intro hnil
      rw [hnil] at hdeciding
      cases hdeciding
    obtain ⟨earlier, best, later, hsplit, hbest, hearlier, hlater⟩ := foldl_prevailing hne
    obtain rfl := Option.some.inj (hbest.symm.trans hdeciding)
    obtain ⟨before, after, hbefore, rfl, hafter⟩ := List.filter_eq_append_iff.1 hsplit
    obtain ⟨skipped, rest, rfl, hskipped, hcovers, rfl⟩ := List.filter_eq_cons_iff.1 hafter
    refine ⟨before ++ skipped, rest, by rw [hbefore, List.append_assoc], hcovers, ?_, ?_⟩
    · intro other hother hcovered
      rcases List.mem_append.1 hother with hother | hother
      · exact hearlier other (List.mem_filter.2 ⟨hother, hcovered⟩)
      · exact absurd hcovered (hskipped other hother)
    · intro other hother hcovered
      exact hlater other (List.mem_filter.2 ⟨hother, hcovered⟩)
  · rintro ⟨earlier, later, hsplit, hcovers, hearlier, hlater⟩
    have hlonger : ∀ other ∈ earlier.filter (·.covers target),
        other.target.length ≤ directive.target.length := fun other hother =>
      hearlier other (List.mem_filter.1 hother).1 (List.mem_filter.1 hother).2
    have hshorter : ∀ other ∈ later.filter (·.covers target),
        other.target.length < directive.target.length := fun other hother =>
      hlater other (List.mem_filter.1 hother).1 (List.mem_filter.1 hother).2
    rw [hsplit, List.filter_append, List.filter_cons, if_pos hcovers, List.foldl_append,
      List.foldl_cons, foldl_prevailing_of_longer hlonger, foldl_prevailing_of_shorter hshorter]

/-- **What passes a filter**: there is a directive that decides, and it lets the
    level pass. -/
theorem admits_iff :
    filter.admits record = true ↔
      ∃ directive, filter.Decides directive record.target ∧
        directive.threshold.admits record.level = true := by
  rw [admits, Option.any_eq_true]
  exact exists_congr fun directive => and_congr_left' deciding?_eq_some_iff

/-- The filter that lets everything pass. -/
theorem admits_trace (record : Record) : (ofText "trace").admits record = true := by
  have hall : ∀ target ∈ ["rpn_calc::scanning", "rpn_calc::evaluating"],
      ∀ level ∈ [Level.warn, .debug, .trace],
        ((ofText "trace").deciding? target).any (·.threshold.admits level) = true := by
    decide +kernel
  cases record <;> exact hall _ (by simp [Record.target]) _ (by simp [Record.level])

end Filter

end Log

/-! ## Reports -/

namespace Shell

variable {filter everything : Log.Filter}

/-- The event reaches the standard error output. -/
def Event.passes (filter : Log.Filter) : Event → Bool
  | .output _ => false
  | .complaint _ => true
  | .log record => filter.admits record

/-- What an event that passes writes to the standard error output, under any
    filter. -/
def Event.reportText : Event → String
  | .output _ => ""
  | .complaint text => text
  | .log record => record.line

/-- The events that reach the standard error output. -/
def reported (filter : Log.Filter) (events : List Event) : List Event :=
  events.filter (·.passes filter)

/-- **The standard error output** is made of the events that reach it. -/
theorem stderr_eq (filter : Log.Filter) (events : List Event) :
    stderr filter events = String.join ((reported filter events).map Event.reportText) := by
  induction events with
  | nil => rfl
  | cons event events ih =>
    have hcons : stderr filter (event :: events) =
        event.errorText filter ++ stderr filter events := by
      rw [stderr, List.map_cons, String.join_cons, stderr]
    rw [hcons, ih, reported, reported, List.filter_cons]
    cases event with
    | output text => simp [Event.passes, Event.errorText]
    | complaint text => simp [Event.passes, Event.errorText, Event.reportText]
    | log record =>
      by_cases hadmits : filter.admits record = true
      · simp [Event.passes, Event.errorText, Event.reportText, hadmits]
      · simp [Event.passes, Event.errorText, hadmits]

/-- A filter picks from what there is without one. -/
theorem reported_eq_filter (h : ∀ record, everything.admits record = true) (events : List Event) :
    reported filter events = (reported everything events).filter (·.passes filter) := by
  rw [reported, reported, List.filter_filter]
  refine List.filter_congr fun event _ => ?_
  cases event with
  | output text => rfl
  | complaint text => rfl
  | log record => simp [Event.passes, h record]

end Shell

/-! ## Runs -/

namespace Program

open Shell (Event)

variable {arguments arguments' expressions : List String} {level? level?' : Option String}

/-- The events of a run that reach the standard error output. -/
def reported (arguments : List String) (setting? : Option String) (input : List UInt8) :
    List Event :=
  Shell.reported (filter setting? (logLevel? (Arguments.read arguments)))
    (events arguments input).events

theorem stderr_run (arguments : List String) (setting? : Option String) (input : List UInt8) :
    (run arguments setting? input).stderr =
      String.join ((reported arguments setting? input).map Event.reportText) :=
  Shell.stderr_eq _ _

/-- **The level is not looked at** by what happens in a run. -/
theorem events_congr (h : Arguments.read arguments = .ok (.calculate ⟨level?, expressions⟩))
    (h' : Arguments.read arguments' = .ok (.calculate ⟨level?', expressions⟩))
    (input : List UInt8) : events arguments input = events arguments' input := by
  rw [events, events, h, h']
  cases expressions with
  | nil => rfl
  | cons expression expressions => rfl

/-- **Log filters** change nothing but the log.  With the same expressions among the
    arguments, the program ends in the same way and shows the same.  What it reports
    is what it reports under `trace`, which lets everything pass, without the records
    that the filter does not let pass; of a filter, the longest directive about a
    target decides.  If the variable is set, the option has no effect. -/
theorem run_filtered (h : Arguments.read arguments = .ok (.calculate ⟨level?, expressions⟩))
    (h' : Arguments.read arguments' = .ok (.calculate ⟨level?', expressions⟩))
    (setting? setting?' : Option String) (input : List UInt8) :
    let chosen := Log.Filter.ofText ((setting? <|> level?).getD "warn")
    (run arguments setting? input).exitCode = (run arguments' setting?' input).exitCode ∧
    (run arguments setting? input).stdout = (run arguments' setting?' input).stdout ∧
    (run arguments setting? input).stderr =
      String.join ((reported arguments setting? input).map Event.reportText) ∧
    ((setting?' <|> level?').getD "warn" = "trace" →
      reported arguments setting? input =
        (reported arguments' setting?' input).filter (·.passes chosen)) ∧
    (∀ record, (Log.Filter.ofText "trace").admits record = true) ∧
    (∀ record, chosen.admits record = true ↔
      ∃ directive, chosen.Decides directive record.target ∧
        directive.threshold.admits record.level = true) ∧
    ∀ text, run arguments (some text) input = run arguments' (some text) input := by
  intro chosen
  have hevents := events_congr h h' input
  have hfilter : filter setting? (logLevel? (Arguments.read arguments)) = chosen := by
    rw [h]
    rfl
  refine ⟨?_, ?_, stderr_run arguments setting? input, ?_, Log.Filter.admits_trace,
    fun record => Log.Filter.admits_iff, ?_⟩
  · rw [run, run, hevents]
  · rw [run, run, hevents]
  · intro htrace
    have hfilter' : filter setting?' (logLevel? (Arguments.read arguments')) =
        Log.Filter.ofText "trace" := by
      rw [h', ← htrace]
      rfl
    rw [reported, reported, hevents, hfilter, hfilter']
    exact Shell.reported_eq_filter Log.Filter.admits_trace _
  · intro text
    rw [run, run, hevents, h, h']
    rfl

/-- The records on what is scanned are left out: the directive about them is longer
    than the one about all records of the program. -/
theorem run_filtered_scanning :
    let chosen := Log.Filter.ofText "rpn_calc=debug, rpn_calc::scanning=off"
    let input := Text.utf8 "batch\n1 x\n\nx\n"
    (run ["--log-level=error"] (some "rpn_calc=debug, rpn_calc::scanning=off") input).stdout =
      (run ["--log-level", "trace"] none input).stdout ∧
    reported ["--log-level=error"] (some "rpn_calc=debug, rpn_calc::scanning=off") input =
      (reported ["--log-level", "trace"] none input).filter (·.passes chosen) ∧
    chosen.admits (.scanned "x") = false ∧ chosen.admits (.applying "x" 1) = true := by
  intro chosen input
  have harguments : Arguments.read ["--log-level=error"] =
      .ok (.calculate ⟨some "error", []⟩) := rfl
  have harguments' : Arguments.read ["--log-level", "trace"] =
      .ok (.calculate ⟨some "trace", []⟩) := rfl
  obtain ⟨-, hstdout, -, hreported, -, -, -⟩ :=
    run_filtered harguments harguments' (some "rpn_calc=debug, rpn_calc::scanning=off") none input
  exact ⟨hstdout, hreported rfl, by decide +kernel, by decide +kernel⟩

end Program

end ReversePolish

/-
  What events write.

  The texts of events are put together: `stdout` and `stderr` send the appending
  of events to that of texts.  Nothing of a log reaches the standard output, and
  nothing of the standard output the other one.
-/
import ReversePolish.Shell.Event

namespace ReversePolish.Shell

/-! ## The standard output -/

/-- Nothing of a log is shown on the standard output. -/
theorem stdout_map_log (log : List Log.Record) : stdout (log.map .log) = "" := by
  induction log with
  | nil => rfl
  | cons record log ih =>
    rw [stdout, List.map_cons, List.map_cons, String.join_cons]
    exact (String.empty_append).trans ih

theorem stdout_map_output (texts : List String) :
    stdout (texts.map .output) = String.join texts := by
  have hid : Event.outputText ∘ Event.output = id := rfl
  rw [stdout, List.map_map, hid, List.map_id]

theorem stdout_append (events events' : List Event) :
    stdout (events ++ events') = stdout events ++ stdout events' := by
  rw [stdout, List.map_append, String.join_append, stdout, stdout]

theorem stdout_cons_output (text : String) (events : List Event) :
    stdout (.output text :: events) = text ++ stdout events := by
  rw [stdout, List.map_cons, String.join_cons, stdout]
  rfl

theorem stdout_complaint (text : String) : stdout [.complaint text] = "" :=
  rfl

/-! ## The standard error output -/

theorem stderr_append (filter : Log.Filter) (events events' : List Event) :
    stderr filter (events ++ events') = stderr filter events ++ stderr filter events' := by
  rw [stderr, List.map_append, String.join_append, stderr, stderr]

theorem stderr_cons_output (filter : Log.Filter) (text : String) (events : List Event) :
    stderr filter (.output text :: events) = stderr filter events := by
  rw [stderr, List.map_cons, String.join_cons, stderr]
  exact String.empty_append

theorem stderr_map_output (filter : Log.Filter) (texts : List String) :
    stderr filter (texts.map .output) = "" := by
  induction texts with
  | nil => rfl
  | cons text texts ih =>
    rw [stderr, List.map_cons, List.map_cons, String.join_cons]
    exact String.empty_append.trans ih

theorem stderr_flatten (filter : Log.Filter) (parts : List (List Event)) :
    stderr filter parts.flatten = String.join (parts.map (stderr filter)) := by
  induction parts with
  | nil => rfl
  | cons part parts ih => rw [List.flatten_cons, stderr_append, ih, List.map_cons, String.join_cons]

/-- Complaints are not subject to the filter. -/
theorem stderr_complaint (filter : Log.Filter) (text : String) :
    stderr filter [.complaint text] = text := by
  rw [stderr, List.map_singleton, String.join_cons]
  exact String.append_empty

end ReversePolish.Shell

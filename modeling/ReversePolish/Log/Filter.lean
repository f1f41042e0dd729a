/-
  Log filters.

  A filter is written as directives with commas between them.  A directive is
  a level, for all targets, or a target with or without a level.

      directive ::= level | target | target '=' | target '=' level
      level     ::= 'off' | 'error' | 'warn' | 'info' | 'debug' | 'trace'

  Letters of a level may be capital.  Left out are the pattern for messages that
  may follow the directives after a slash, and the warnings about directives that
  cannot be read: those are dropped.

  * `Filter.ofText` reads a filter;
  * `Filter.admits` says whether a record passes: of the directives whose
    target the record's target starts with, the longest decides.
-/
import ReversePolish.Log.Record
import ReversePolish.Text.Blank

namespace ReversePolish.Log

/-- The least important level that passes; none if nothing does. -/
abbrev Threshold := Option Level

/-- A level passes a threshold if it is at least as important. -/
def Threshold.admits (threshold : Threshold) (level : Level) : Bool :=
  threshold.any fun least => level.rank ≤ least.rank

/-- The threshold that a word names. -/
def Threshold.ofChars? (word : List Char) : Option Threshold :=
  match (String.ofList word).toLower with
  | "off" => some none
  | "error" => some (some .error)
  | "warn" => some (some .warn)
  | "info" => some (some .info)
  | "debug" => some (some .debug)
  | "trace" => some (some .trace)
  | _ => none

/-! ## Directives -/

/-- A directive of a filter. -/
structure Directive where
  /-- What a target has to start with; nothing, for all targets. -/
  target : List Char
  threshold : Threshold

namespace Directive

/-- The directive with this text.  A target alone lets all levels pass. -/
def ofChars? (cs : List Char) : Option Directive :=
  match cs.splitOn '=' with
  | [word] =>
    match Threshold.ofChars? word with
    | some threshold => some ⟨[], threshold⟩
    | none => some ⟨word, some .trace⟩
  | [target, word] =>
    match Text.trimChars word with
    | [] => some ⟨target, some .trace⟩
    | word => (Threshold.ofChars? word).map (⟨target, ·⟩)
  | _ => none

/-- The directive is about this target. -/
def covers (directive : Directive) (target : String) : Bool :=
  directive.target.isPrefixOf target.toList

/-- Of two directives about a target, the one with the longer text decides,
    the later one if the texts are the same. -/
def prevails (later earlier : Directive) : Bool :=
  earlier.target.length ≤ later.target.length

end Directive

/-! ## Filters -/

/-- A log filter. -/
structure Filter where
  directives : List Directive

namespace Filter

/-- The filter with this text.  One without directives lets errors pass. -/
def ofText (text : String) : Filter :=
  let parts := ((text.toList.splitOn ',').map Text.trimChars).filter (· ≠ [])
  match parts.filterMap Directive.ofChars? with
  | [] => ⟨[⟨[], some .error⟩]⟩
  | directives => ⟨directives⟩

/-- The directive that decides about a target. -/
def deciding? (filter : Filter) (target : String) : Option Directive :=
  (filter.directives.filter (·.covers target)).foldl
    (fun best directive =>
      if best.all directive.prevails then some directive else best)
    none

/-- A record passes if there is a directive about its target, and the
    deciding one lets its level pass. -/
def admits (filter : Filter) (record : Record) : Bool :=
  (filter.deciding? record.target).any (·.threshold.admits record.level)

end Filter

end ReversePolish.Log

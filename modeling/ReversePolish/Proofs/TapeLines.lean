/-
  The lines of a tape, which determine it.

  * `Tape.Entry.text_injective`: different entries have different texts, whatever the
    expressions are;
  * `Tape.getElem?_lines`: each entry has a line, with its number;
  * `Tape.lines_injective`: different tapes have different lines;
  * `Calculator.performAll_showTape`: showing lines changes nothing;
  * `Calculator.tapeLines_determine`: all of this, for the tape of a calculator.
-/
import ReversePolish.Calculator.Session
import ReversePolish.Proofs.Texts

namespace ReversePolish

/-! ## Entries -/

/-- What follows the last of some separators is determined. -/
theorem Text.eq_of_append_cons_eq {separator : Char} {cs cs' rest rest' : List Char}
    (h : cs ++ separator :: rest = cs' ++ separator :: rest') (hrest : separator ∉ rest)
    (hrest' : separator ∉ rest') : rest = rest' := by
  rcases List.append_eq_append_iff.1 h with ⟨between, -, hr⟩ | ⟨between, -, hr⟩
  · cases between with
    | nil => exact (List.cons.inj hr).2
    | cons c between => exact absurd ((List.cons.inj hr).2 ▸ by simp) hrest
  · cases between with
    | nil => exact (List.cons.inj hr).2.symm
    | cons c between => exact absurd ((List.cons.inj hr).2 ▸ by simp) hrest'

theorem Number.space_notMem_text (x : Float) : ' ' ∉ (text x).toList := by
  intro h
  exact absurd ((isChunk_text x).2 ' ' h) (by decide)

namespace Tape

theorem Entry.toList_text (entry : Entry) :
    entry.text.toList =
      (entry.expression.toList ++ [' ', '=']) ++ ' ' :: (Number.text entry.result).toList := by
  rw [text, String.toList_append, String.toList_append, List.append_assoc, List.append_assoc]
  rfl

/-- **Different entries have different texts.**  The last space of a text is the one
    before the result, so that the expression may have any others. -/
theorem Entry.text_injective : Function.Injective Entry.text := by
  intro entry entry' h
  have hlist := congrArg String.toList h
  rw [toList_text, toList_text] at hlist
  have hresult : (Number.text entry.result).toList = (Number.text entry'.result).toList :=
    Text.eq_of_append_cons_eq hlist (Number.space_notMem_text _) (Number.space_notMem_text _)
  rw [hresult, List.append_cancel_right_eq, List.append_cancel_right_eq] at hlist
  obtain ⟨expression, result⟩ := entry
  obtain ⟨expression', result'⟩ := entry'
  obtain rfl := Number.text_injective (String.toList_injective hresult)
  obtain rfl := String.toList_injective hlist
  rfl

/-! ## Lines -/

variable {tape tape' : Tape}

theorem line_injective (position : Nat) : Function.Injective (line · position) := by
  intro entry entry' h
  exact Entry.text_injective ((String.append_right_inj _).1 h)

theorem line_eq (entry : Entry) (position : Nat) :
    line entry position =
      s!"{position + 1}. {entry.expression} = {Number.text entry.result}" := by
  simp only [line, Entry.text, toString, String.append_assoc]

/-- **Each entry has a line**, with its number. -/
theorem getElem?_lines (tape : Tape) (position : Nat) :
    tape.lines[position]? = tape.entries[position]?.map (line · position) := by
  rw [lines, List.getElem?_map, List.getElem?_zipIdx, Option.map_map, Nat.zero_add]
  rfl

theorem length_lines (tape : Tape) : tape.lines.length = tape.size := by
  rw [lines, List.length_map, List.length_zipIdx, size]

/-- **Different tapes have different lines.** -/
theorem lines_injective : Function.Injective lines := by
  rintro ⟨entries⟩ ⟨entries'⟩ h
  refine congrArg Tape.mk (List.ext_getElem? fun position => ?_)
  have hline := congrArg (·[position]?) h
  simp only [getElem?_lines] at hline
  exact Option.map_injective (line_injective position) hline

end Tape

/-! ## Readings -/

namespace Calculator

theorem performAll_showTape (calculator : Calculator) (limits : List (Option Nat))
    (actions : List Action) :
    calculator.performAll (limits.map .showTape ++ actions) =
      limits.map (fun limit => ⟨.ok (.texts (calculator.tapeLines limit)), calculator, []⟩) ++
        calculator.performAll actions := by
  induction limits with
  | nil => rfl
  | cons limit limits ih =>
    rw [List.map_cons, List.cons_append, performAll, List.map_cons, List.cons_append]
    exact congrArg _ ih

/-- The lines of the tape, as they are read. -/
structure ListsTape (calculator : Calculator) : Prop where
  length : (calculator.tapeLines none).length = calculator.tape.size
  line : ∀ position, (calculator.tapeLines none)[position]? =
    calculator.tape.entries[position]?.map fun entry =>
      s!"{position + 1}. {entry.expression} = {Number.text entry.result}"
  /-- The first lines are those of all. -/
  first : ∀ limit, calculator.tapeLines (some limit) <+: calculator.tapeLines none
  length_first : ∀ limit,
    (calculator.tapeLines (some limit)).length = min limit calculator.tape.size
  /-- Reading lines, all or some of them, as often as one likes, changes nothing. -/
  readings : ∀ (limits : List (Option Nat)) actions,
    calculator.performAll (limits.map .showTape ++ actions) =
      limits.map (fun limit => ⟨.ok (.texts (calculator.tapeLines limit)), calculator, []⟩) ++
        calculator.performAll actions

theorem listsTape (calculator : Calculator) : calculator.ListsTape where
  length := calculator.tape.length_lines
  line position := by
    rw [tapeLines, Tape.getElem?_lines]
    exact congrArg (Option.map · _) (funext fun entry => Tape.line_eq entry position)
  first limit := List.take_prefix limit _
  length_first limit := by rw [tapeLines, List.length_take, Tape.length_lines]
  readings := calculator.performAll_showTape

/-- **The lines of a tape determine it.**  There is one for each entry, and reading
    them changes nothing; calculators that show the same lines have the same
    expressions with the same results on their tapes. -/
theorem tapeLines_determine (calculator : Calculator) :
    calculator.ListsTape ∧
    ∀ calculator' : Calculator,
      calculator.tapeLines none = calculator'.tapeLines none ↔
        calculator.tape.entries = calculator'.tape.entries := by
  refine ⟨calculator.listsTape, fun calculator' => ⟨fun h => ?_, fun h => ?_⟩⟩
  · exact congrArg Tape.entries (Tape.lines_injective h)
  · rw [tapeLines, tapeLines, Tape.lines, Tape.lines, h]

/-- An expression may look like a line. -/
example : Tape.lines ⟨[⟨"1 = 2\n2. 3", 4.0⟩]⟩ = ["1. 1 = 2\n2. 3 = 4"] := by decide +kernel

end Calculator

end ReversePolish

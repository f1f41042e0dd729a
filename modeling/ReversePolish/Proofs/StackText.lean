/-
  The text of a stack, read back.

  * `Token.run_numbers`: tokens that are numbers are pushed;
  * `Calculator.listing` has the values in words, `Calculator.stackText_of_ne`: the
    text of a stack is its listing under a heading, unless it is empty;
  * `Calculator.ReadsBack`: a listing has the values of the stack as its tokens, and
    evaluating it puts finite values back on a stack;
  * `Calculator.stackText_reads_back`: the listing of every stack reads back, and
    different stacks have different texts.
-/
import ReversePolish.Proofs.Execution
import ReversePolish.Proofs.Texts

namespace ReversePolish

open Stack (ofValues)

/-- Numbers are pushed one after the other. -/
theorem Token.run_numbers (below values : List Float) :
    (executeAll (values.map .number)).run (ofValues below) = .ok () (ofValues (below ++ values)) := by
  induction values generalizing below with
  | nil => rw [List.append_nil, List.map_nil, run_executeAll_nil]
  | cons value values ih =>
    have hpush : (execute (.number value)).run (ofValues below) =
        .ok () (ofValues (below ++ [value])) := Stack.run_push value below
    rw [List.map_cons, run_cons_of_ok hpush, ih, List.append_assoc, List.singleton_append]

theorem Stack.isEmpty_iff {stack : Stack} : stack.isEmpty = true ↔ stack = {} := by
  obtain ⟨_ | ⟨value, below⟩⟩ := stack
  · exact iff_of_true rfl rfl
  · exact iff_of_false Bool.false_ne_true (by simp)

theorem Stack.values_injective : Function.Injective Stack.values := by
  intro stack stack' h
  rw [← ofValues_values stack, h, ofValues_values]

namespace Calculator

variable {calculator : Calculator} {stack : Stack}

/-- The values of a stack in words, bottom first. -/
def listing (stack : Stack) : String :=
  " ".intercalate (stack.values.map Number.text)

/-- What a listing is shown under. -/
def heading : String := "Current stack (bottom to top): "

/-! ## Texts -/

theorem stackText_of_empty (h : calculator.stack = {}) : calculator.stackText = "Stack is empty" := by
  rw [stackText, h]
  rfl

theorem stackText_of_ne (h : calculator.stack ≠ {}) :
    calculator.stackText = heading ++ listing calculator.stack :=
  if_neg (mt Stack.isEmpty_iff.1 h)

/-- A listing is not taken for the text of an empty stack. -/
theorem heading_append_ne (listed : String) : heading ++ listed ≠ "Stack is empty" := by
  intro h
  have hfirst := congrArg (fun text => text.toList.head?) h
  rw [String.toList_append] at hfirst
  cases hfirst

theorem stackText_eq_empty_iff : calculator.stackText = "Stack is empty" ↔ calculator.stack = {} := by
  refine ⟨fun h => ?_, stackText_of_empty⟩
  by_contra hne
  rw [stackText_of_ne hne] at h
  exact heading_append_ne _ h

/-! ## Tokens -/

/-- **The tokens of a listing** are those of the values, bottom first. -/
theorem all_listing (stack : Stack) :
    Token.all (listing stack) = stack.values.map Number.token := by
  have hchunks : ∀ chunk ∈ stack.values.map Number.text, Text.IsChunk chunk := by
    intro chunk h
    obtain ⟨value, -, rfl⟩ := List.mem_map.1 h
    exact Number.isChunk_text value
  rw [listing, Token.all_intercalate hchunks, List.map_map]
  exact List.map_congr_left fun value _ => Number.ofChunk_text_eq value

theorem listing_injective : Function.Injective listing := by
  intro stack stack' h
  have htokens := congrArg Token.all h
  rw [all_listing, all_listing] at htokens
  exact Stack.values_injective (Number.token_injective.list_map htokens)

/-- **Different stacks have different texts.** -/
theorem stackText_eq_iff (calculator calculator' : Calculator) :
    calculator.stackText = calculator'.stackText ↔ calculator.stack = calculator'.stack := by
  refine ⟨fun h => ?_, fun h => by rw [stackText, stackText, h]⟩
  by_cases hempty : calculator.stack = {}
  · rw [stackText_of_empty hempty] at h
    rw [hempty, stackText_eq_empty_iff.1 h.symm]
  · have hempty' : calculator'.stack ≠ {} := by
      intro hempty'
      rw [stackText_of_empty hempty'] at h
      exact hempty (stackText_eq_empty_iff.1 h)
    rw [stackText_of_ne hempty, stackText_of_ne hempty', String.append_right_inj] at h
    exact listing_injective h

/-! ## Values -/

/-- Finite values are put back on an empty stack. -/
theorem run_listing (h : ∀ value ∈ stack.values, value.isFinite = true) :
    (Token.executeAll (Token.all (listing stack))).run {} = .ok () stack := by
  have htokens : stack.values.map Number.token = stack.values.map .number :=
    List.map_congr_left fun value hmem => Number.token_of_isFinite (h value hmem)
  have hrun := Token.run_numbers [] stack.values
  rw [List.nil_append, Stack.ofValues_values] at hrun
  rw [all_listing, htokens]
  exact hrun

/-- The text `listed` has the values of the stack, bottom first, as its tokens.
    Evaluated on a new calculator, it puts finite values back: a single one is its
    value, several are left on the stack. -/
structure ReadsBack (stack : Stack) (listed : String) : Prop where
  tokens : Token.all listed = stack.values.map Number.token
  value : ∀ value, stack = ofValues [value] → value.isFinite = true →
    (evaluate {} listed).Leaves (.ok value) [] ⟨[⟨listed, value⟩]⟩
  several : (∀ value ∈ stack.values, value.isFinite = true) → 2 ≤ stack.size →
    (evaluate {} listed).Leaves (.error (.notOneValue stack.size)) stack.values {}

theorem readsBack_listing (stack : Stack) : ReadsBack stack (listing stack) where
  tokens := all_listing stack
  value := by
    rintro value rfl hfinite
    exact evaluate_of_one (run_listing (by simpa using hfinite))
  several hfinite hsize := evaluate_of_ne (run_listing hfinite) (by omega)

/-- **The text of a stack can be read back.**  It says that the stack is empty, when
    it is; else it lists the values, of which each has a token of its own.  Stacks
    with the same text have the same values. -/
theorem stackText_reads_back (calculator : Calculator) :
    (calculator.stackText = "Stack is empty" ↔ calculator.stack = {}) ∧
    (calculator.stack ≠ {} → ∃ listed,
      calculator.stackText = "Current stack (bottom to top): " ++ listed ∧
        ReadsBack calculator.stack listed) ∧
    ∀ calculator' : Calculator,
      calculator.stackText = calculator'.stackText ↔ calculator.stack = calculator'.stack :=
  ⟨stackText_eq_empty_iff,
    fun hne => ⟨_, stackText_of_ne hne, readsBack_listing calculator.stack⟩,
    calculator.stackText_eq_iff⟩

/-- Words are tokens, too. -/
example : Token.all (listing (ofValues [-0.0, 0.0 / 0.0, -1.0 / 0.0])) =
    [.number (-0.0), .word "NaN", .word "-inf"] := by
  rw [all_listing]
  decide

end Calculator

end ReversePolish

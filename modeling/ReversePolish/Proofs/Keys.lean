/-
  Keys pressed one by one, and the expression that they are typed as.

  * `Key` is a finite number or a word, `Calculator.pressAll` works through keys
    up to the first failure;
  * `Token.all_typed`: the expression reads back as the keys, bit for bit;
  * `Calculator.pressAll_typed`: pressing the keys and evaluating the expression
    come to the same stack and the same failure.
-/
import ReversePolish.Proofs.Execution
import ReversePolish.Proofs.Numeral
import ReversePolish.Proofs.Readback

namespace ReversePolish

open Text (IsChunk)

/-- A key of a calculator. -/
inductive Key where
  | number (value : Float) (isFinite : value.isFinite = true)
  | word (text : String) (isChunk : IsChunk text) (isWord : Token.ofChunk text = .word text)

namespace Key

def text : Key → String
  | number value _ => Number.text value
  | word text _ _ => text

def token : Key → Token
  | number value _ => .number value
  | word text _ _ => .word text

/-- The keys in their order, with a space between any two. -/
def typed (keys : List Key) : String :=
  " ".intercalate (keys.map text)

theorem ofChunk_text (key : Key) : Token.ofChunk key.text = key.token := by
  cases key with
  | number value h => exact Number.ofChunk_text h
  | word text _ h => exact h

theorem isChunk_text (key : Key) : IsChunk key.text := by
  cases key with
  | number value h => exact Numeral.isChunk ⟨_, value, Number.ofChunk_text h⟩
  | word text h _ => exact h

end Key

/-! ## Typing -/

/-- **The expression reads back as the keys.** -/
theorem Token.all_typed (keys : List Key) : Token.all (Key.typed keys) = keys.map Key.token := by
  have hchunks : ∀ chunk ∈ keys.map Key.text, IsChunk chunk := by
    intro chunk h
    obtain ⟨key, -, rfl⟩ := List.mem_map.1 h
    exact key.isChunk_text
  rw [Key.typed, Token.all_intercalate hchunks, List.map_map]
  exact List.map_congr_left fun key _ => key.ofChunk_text

/-- A sign is kept, and a large number has no exponent. -/
example : Key.typed [.number (-0.0) (by decide), .number 1e22 (by decide +kernel),
    .word "*" (Operation.isChunk_name .multiply) (Operation.ofChunk_name .multiply)] =
      "-0 10000000000000000000000 *" := by
  decide +kernel

/-! ## Pressing -/

namespace Calculator

/-- Push a number, or apply the operation that a word names. -/
def press (calculator : Calculator) : Key → Outcome Unit
  | .number value _ => calculator.push value
  | .word text _ _ => calculator.applyWord text

/-- Press the keys one by one, up to the first failure. -/
def pressAll (calculator : Calculator) : List Key → Outcome Unit
  | [] => ⟨.ok (), calculator, []⟩
  | key :: keys => (calculator.press key).andThen fun _ calculator => calculator.pressAll keys

section
variable {α : Type} {computation : StackM α} {stack left : Stack} {tape : Tape}

theorem onStack_of_ok {value : α} (h : computation.run stack = .ok value left) :
    onStack ⟨stack, tape⟩ computation = ⟨.ok value, ⟨left, tape⟩, []⟩ := by
  rw [onStack, h]

theorem onStack_of_error {failure : Failure} (h : computation.run stack = .error failure left) :
    onStack ⟨stack, tape⟩ computation = ⟨.error failure, ⟨left, tape⟩, []⟩ := by
  rw [onStack, h]

end

theorem press_eq (calculator : Calculator) (key : Key) :
    ∃ records, calculator.press key = (calculator.onStack key.token.execute).after records := by
  cases key with
  | number value _ => exact ⟨[], rfl⟩
  | word text _ _ => exact ⟨[.applying text calculator.stack.size], rfl⟩

/-- Pressing keys executes their tokens. -/
theorem pressAll_eq (calculator : Calculator) (keys : List Key) :
    ∃ records, calculator.pressAll keys =
      (calculator.onStack (Token.executeAll (keys.map Key.token))).after records := by
  induction keys generalizing calculator with
  | nil => exact ⟨[], rfl⟩
  | cons key keys ih =>
    obtain ⟨records, hkey⟩ := calculator.press_eq key
    rw [pressAll, hkey, Outcome.andThen_after, List.map_cons, Token.executeAll, onStack_bind,
      onStack_andThen, onStack_andThen]
    rcases key.token.execute.run calculator.stack with ⟨⟨⟩, stack⟩ | ⟨failure, stack⟩
    · obtain ⟨records', hkeys⟩ := ih { calculator with stack }
      simp only [hkeys, Outcome.after_after]
      exact ⟨_, rfl⟩
    · exact ⟨_, rfl⟩

/-- Pressing keys, `pressed`, agrees with executing their expression, `executed`,
    and with its value, `evaluated`. -/
structure Agrees (pressed executed : Outcome Unit) (evaluated : Outcome Float) : Prop where
  result : pressed.result = executed.result
  stack : pressed.calculator.stack = executed.calculator.stack
  failure : ∀ failure, pressed.result = .error failure →
    evaluated.result = .error failure ∧ evaluated.calculator.stack = pressed.calculator.stack
  value : ∀ value, pressed.result = .ok () → pressed.calculator.stack = .ofValues [value] →
    evaluated.result = .ok value
  notOneValue : pressed.result = .ok () → pressed.calculator.stack.size ≠ 1 →
    evaluated.result = .error (.notOneValue pressed.calculator.stack.size) ∧
      evaluated.calculator.stack = pressed.calculator.stack

/-- **Pressing keys agrees with evaluating the expression** that they are typed as,
    from the same stack.  Whether the keys fail, and how, and what they leave on the
    stack is the same as for the expression before its value is taken. -/
theorem pressAll_typed (stack : Stack) (tape tape' : Tape) (keys : List Key) :
    Agrees (pressAll ⟨stack, tape⟩ keys)
      (execute ⟨stack, tape'⟩ (.ofText (Key.typed keys)))
      (evaluate ⟨stack, tape'⟩ (Key.typed keys)) := by
  obtain ⟨records, hpressed⟩ := pressAll_eq ⟨stack, tape⟩ keys
  obtain ⟨records', -, hexecuted⟩ := execute_eq ⟨stack, tape'⟩ (.ofText (Key.typed keys))
  rw [← Token.all_typed] at hpressed
  rw [← Token.all] at hexecuted
  rw [hpressed, hexecuted]
  -- both run the same tokens on the same stack
  rcases hrun : (Token.executeAll (Token.all (Key.typed keys))).run stack with
    ⟨⟨⟩, left⟩ | ⟨failure, left⟩
  · rw [onStack_of_ok hrun, onStack_of_ok hrun]
    refine ⟨rfl, rfl, fun failure h => ?_, fun value _ hstack => ?_, fun _ hsize => ?_⟩
    · cases h
    · have hone : left = .ofValues [value] := hstack
      exact (evaluate_of_one (hone ▸ hrun)).result
    · have hleaves : (evaluate ⟨stack, tape'⟩ (Key.typed keys)).Leaves _ _ _ :=
        evaluate_of_ne hrun hsize
      exact ⟨hleaves.result, hleaves.stack.trans left.ofValues_values⟩
  · have hleaves : (evaluate ⟨stack, tape'⟩ (Key.typed keys)).Leaves _ _ _ :=
      evaluate_of_failure hrun
    rw [onStack_of_error hrun, onStack_of_error hrun]
    refine ⟨rfl, rfl, fun failure' h => ?_, fun value h => ?_, fun h => ?_⟩
    · cases h
      exact ⟨hleaves.result, hleaves.stack.trans left.ofValues_values⟩
    · cases h
    · cases h

end Calculator

end ReversePolish

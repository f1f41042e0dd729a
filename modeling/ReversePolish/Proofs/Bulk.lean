/-
  Operations on many values at once, against those on one.

  * `Stack.popTimes` pops values one by one;
  * `Stack.forM_push`: putting many values on a stack is pushing them one by one;
  * `Stack.run_popTimes`: single pops take the same values as `Stack.take`, the top
    first, and `Stack.run_popTimes_of_lt`: where there are too few, they empty the
    stack before they fail;
  * `Stack.Cuts` says where a stack is cut to take values from it;
  * `Stack.agrees_with_single`: the operations on many values agree with those on
    one, and undo each other.
-/
import ReversePolish.Proofs.Transaction

namespace ReversePolish.Stack

variable {stack left : Stack} {count kept : Nat} {values : List Float}

/-- The rest of a computation whose first part succeeds. -/
theorem run_bind_of_ok {α β : Type} {first : StackM α} {rest : α → StackM β} {result : α}
    (h : first.run stack = .ok result left) : (first >>= rest).run stack = (rest result).run left := by
  rw [EStateM.run_bind, h]

/-! ## Values one by one -/

/-- Take the top value, as many times.  The answer has the values in the order in
    which they are taken. -/
def popTimes : (count : Nat) → StackM (List Float)
  | 0 => pure []
  | count + 1 => do
    let value ← pop
    let values ← popTimes count
    return value :: values

theorem popTimes_succ (count : Nat) (value : Float) (below : List Float) :
    (popTimes (count + 1)).run ⟨value :: below⟩ =
      match (popTimes count).run ⟨below⟩ with
      | .ok values left => .ok (value :: values) left
      | .error failure left => .error failure left := by
  have hpop : pop.run ⟨value :: below⟩ = .ok value ⟨below⟩ := rfl
  rw [popTimes, run_bind_of_ok hpop, EStateM.run_bind]
  cases (popTimes count).run ⟨below⟩ <;> rfl

theorem popTimes_append (top below : List Float) :
    (popTimes top.length).run ⟨top ++ below⟩ = .ok top ⟨below⟩ := by
  induction top with
  | nil => rfl
  | cons value top ih => rw [List.length_cons, List.cons_append, popTimes_succ, ih]

/-- **Single pops** take the values from the top down. -/
theorem run_popTimes (below above : List Float) :
    (popTimes above.length).run (ofValues (below ++ above)) =
      .ok above.reverse (ofValues below) := by
  have hrun := popTimes_append above.reverse below.reverse
  rwa [List.length_reverse, ← List.reverse_append] at hrun

/-- Too few values: single pops take them all before one fails. -/
theorem run_popTimes_of_lt (h : stack.size < count) :
    (popTimes count).run stack = .error .underflow {} := by
  obtain ⟨values⟩ := stack
  induction values generalizing count with
  | nil =>
    obtain ⟨count, rfl⟩ := Nat.exists_eq_succ_of_ne_zero (Nat.ne_of_gt h)
    rw [popTimes, EStateM.run_bind]
    rfl
  | cons value below ih =>
    obtain ⟨count, rfl⟩ := Nat.exists_eq_succ_of_ne_zero (Nat.ne_of_gt (Nat.zero_lt_of_lt h))
    rw [popTimes_succ, ih (Nat.lt_of_succ_lt_succ h)]

/-- **Many values are put on a stack** as if they were pushed one by one. -/
theorem forM_push (values : List Float) : values.forM push = pushAll values := by
  induction values with
  | nil => rfl
  | cons value values ih =>
    have hrest : (value :: values).forM push = (do push value; values.forM push) := rfl
    rw [hrest, ih]
    funext stack
    simp [bind, EStateM.bind, push, pushAll]

/-! ## Many values -/

theorem run_require (count : Nat) (stack : Stack) :
    (require count).run stack =
      if stack.size < count then .error .underflow stack else .ok () stack := rfl

/-- The stack is cut above the lowest `kept` values: `values` lie above, `left` is what
    remains. -/
structure Cuts (stack : Stack) (kept : Nat) (values : List Float) (left : Stack) : Prop where
  values_eq : values = stack.values.drop kept
  left_eq : left = ofValues (stack.values.take kept)

/-- What taking and requiring `count` values comes to, if the stack has them. -/
structure TakesTop (stack : Stack) (count kept : Nat) (values : List Float) (left : Stack) :
    Prop where
  /-- The number of values that are kept is a difference, without any rest. -/
  kept_add : kept + count = stack.size
  cuts : stack.Cuts kept values left
  take_eq : (take count).run stack = .ok values left
  /-- The same values are popped one by one, the top first. -/
  popTimes_eq : (popTimes count).run stack = .ok values.reverse left
  require_eq : (require count).run stack = .ok () stack
  /-- The values can be put back. -/
  pushAll_eq : (pushAll values).run left = .ok () stack

/-- What it comes to, if the stack does not have them. -/
structure Lacks (stack : Stack) (count : Nat) : Prop where
  take_eq : (take count).run stack = .error .underflow stack
  require_eq : (require count).run stack = .error .underflow stack
  popTimes_eq : (popTimes count).run stack = .error .underflow {}

theorem exists_takesTop (h : count ≤ stack.size) :
    ∃ kept values left, stack.TakesTop count kept values left := by
  obtain ⟨kept, hkept⟩ := Nat.exists_eq_add_of_le' h
  have hsplit : ofValues (stack.values.take kept ++ stack.values.drop kept) = stack := by
    rw [List.take_append_drop, ofValues_values]
  have hlength : (stack.values.drop kept).length = count := by
    rw [List.length_drop, length_values, hkept, Nat.add_sub_cancel_left]
  have htake := run_take (stack.values.take kept) (stack.values.drop kept)
  have hpop := run_popTimes (stack.values.take kept) (stack.values.drop kept)
  have hpush := run_pushAll (stack.values.take kept) (stack.values.drop kept)
  rw [hsplit] at htake hpop hpush
  rw [hlength] at htake hpop
  exact ⟨kept, _, _, hkept.symm, ⟨rfl, rfl⟩, htake, hpop,
    (run_require count stack).trans (if_neg (Nat.not_lt.2 h)), hpush⟩

theorem lacks_of_lt (h : stack.size < count) : stack.Lacks count where
  take_eq := (run_take_eq count stack).trans (if_pos h)
  require_eq := (run_require count stack).trans (if_pos h)
  popTimes_eq := run_popTimes_of_lt h

/-- Values that are put on a stack can be taken back, all at once or one by one. -/
structure TakesBack (stack : Stack) (values : List Float) : Prop where
  /-- All at once is as one by one. -/
  pushAll_eq : (pushAll values).run stack = (values.forM push).run stack
  take_eq : (do pushAll values; take values.length).run stack = .ok values stack
  popTimes_eq : (do values.forM push; popTimes values.length).run stack = .ok values.reverse stack
  /-- One more pop is one on the stack before. -/
  pop_eq : (do values.forM push; let _ ← popTimes values.length; pop).run stack = pop.run stack

theorem takesBack (stack : Stack) (values : List Float) : stack.TakesBack values := by
  obtain ⟨below, rfl⟩ := stack.exists_ofValues
  have htake := run_take below values
  have hpop := run_popTimes below values
  have hput := run_pushAll below values
  refine ⟨?_, ?_, ?_, ?_⟩
  · rw [forM_push]
  · rw [run_bind_of_ok hput, htake]
  · rw [forM_push, run_bind_of_ok hput, hpop]
  · rw [forM_push, run_bind_of_ok hput, run_bind_of_ok hpop]

/-- **Operations on many values agree with those on one.**  A stack with enough values
    gives those on top, as single pops do in the other order; they can be put back.  A
    stack with too few values stays as it is.  Values that are pushed are popped in the
    other order, down to the stack before. -/
theorem agrees_with_single (stack : Stack) :
    (∀ count, ((∃ values left, (take count).run stack = .ok values left) ↔ count ≤ stack.size) ∧
      (count ≤ stack.size → ∃ kept values left, stack.TakesTop count kept values left) ∧
      (stack.size < count → stack.Lacks count)) ∧
    ∀ values, stack.TakesBack values := by
  refine ⟨fun count => ⟨⟨?_, fun h => ?_⟩, exists_takesTop, lacks_of_lt⟩, stack.takesBack⟩
  · rintro ⟨values, left, h⟩
    by_contra hlt
    rw [(lacks_of_lt (Nat.lt_of_not_le hlt)).take_eq] at h
    cases h
  · obtain ⟨kept, values, left, htakes⟩ := exists_takesTop h
    exact ⟨values, left, htakes.take_eq⟩

end ReversePolish.Stack

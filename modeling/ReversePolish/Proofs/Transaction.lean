/-
  Operations as transactions on the top of the stack.

  Stacks are seen through their values, bottom first (`Stack.ofValues`).

  * `Stack.run_push`, `Stack.run_pushAll` and `Stack.run_take`: what the
    computations do to the values;
  * `Operation.Rejects` lists the failures on operands of the right number,
    `Operation.rejects_of_compute`: there are no others;
  * `Operation.run_apply` and `Operation.run_apply_of_lt`: an operation
    replaces its operands by the result, or leaves the stack as it is;
  * `Operation.applyNamed_transacts`: what a name does to a stack.
-/
import Mathlib.Data.List.Basic
import ReversePolish.Operation.Apply
import ReversePolish.Proofs.Unpacked

namespace ReversePolish

/-- A failure about the values of operands, not about their number. -/
inductive Failure.OfValues : Failure → Prop
  | zeroDivisor : OfValues .zeroDivisor
  | outsideDomain (reason : String) : OfValues (.outsideDomain reason)

namespace Stack

@[simp] theorem size_ofValues (values : List Float) : (ofValues values).size = values.length := by
  simp [ofValues, size]

/-- Every stack is one of values. -/
theorem exists_ofValues (stack : Stack) : ∃ values, stack = ofValues values :=
  ⟨stack.values, stack.ofValues_values.symm⟩

/-! ## Computations on the values -/

theorem run_push (value : Float) (values : List Float) :
    (push value).run (ofValues values) = .ok () (ofValues (values ++ [value])) := by
  simp [push, EStateM.run, ofValues]

theorem run_pushAll (below above : List Float) :
    (pushAll above).run (ofValues below) = .ok () (ofValues (below ++ above)) := by
  simp [pushAll, EStateM.run, ofValues]

theorem run_take_eq (count : Nat) (stack : Stack) :
    (take count).run stack =
      if stack.size < count then .error .underflow stack
      else .ok (stack.topFirst.take count).reverse ⟨stack.topFirst.drop count⟩ := by
  simp only [EStateM.run, take, bind, EStateM.bind, require]
  by_cases h : stack.size < count
  · simp only [if_pos h]
  · simp only [if_neg h]

/-- Taking as many values as lie above `below`. -/
theorem run_take (below above : List Float) :
    (take above.length).run (ofValues (below ++ above)) = .ok above (ofValues below) := by
  rw [run_take_eq, if_neg (by simp)]
  simp [ofValues]

theorem run_take_of_lt {values : List Float} {count : Nat} (h : values.length < count) :
    (take count).run (ofValues values) = .error .underflow (ofValues values) := by
  rw [run_take_eq, if_pos (by simpa using h)]

end Stack

namespace Operation

open Stack (ofValues)

variable {operation : Operation}

/-! ## Names -/

theorem name_injective {operation operation' : Operation} (h : operation.name = operation'.name) :
    operation = operation' := by
  cases operation <;> cases operation' <;> first | rfl | simp [name] at h

@[simp] theorem ofName?_name (operation : Operation) :
    ofName? operation.name = some operation := by
  cases operation <;> rfl

theorem ofName?_eq_some_iff {word : String} :
    ofName? word = some operation ↔ operation.name = word := by
  constructor
  · intro h
    simpa using List.find?_some h
  · rintro rfl
    exact ofName?_name operation

/-! ## Failures -/

/-- What operations fail with, on operands of the right number.  The operations
    that are not listed have a result for all operands. -/
inductive Rejects : Operation → (operands : List Float) → Failure → Prop
  | divide {dividend divisor : Float} : divisor = 0.0 ∨ divisor = -0.0 →
      Rejects .divide [dividend, divisor] .zeroDivisor
  | squareRoot {x : Float} (reason : String) : x < 0.0 →
      Rejects .squareRoot [x] (.outsideDomain reason)
  | tangent {x : Float} (reason : String) : Rejects .tangent [x] (.outsideDomain reason)
  | fibonacci {x : Float} (reason : String) : Rejects .fibonacci [x] (.outsideDomain reason)
  | pascal {row column : Float} (reason : String) :
      Rejects .pascal [row, column] (.outsideDomain reason)

theorem Rejects.ofValues {operands : List Float} {failure : Failure}
    (h : operation.Rejects operands failure) : failure.OfValues := by
  cases h with
  | divide => exact .zeroDivisor
  | squareRoot reason | tangent reason | fibonacci reason | pascal reason =>
    exact .outsideDomain reason

/-- **The failures on enough operands** are the listed ones. -/
theorem rejects_of_compute {operands : List Float} {failure : Failure}
    (hlen : operands.length = operation.arity) (h : operation.compute operands = .error failure) :
    operation.Rejects operands failure := by
  cases operation with
  | add | subtract | multiply | power =>
    obtain ⟨x, y, rfl⟩ := List.length_eq_two.1 hlen
    simp [compute] at h
  | sine | cosine =>
    obtain ⟨x, rfl⟩ := List.length_eq_one_iff.1 hlen
    simp [compute] at h
  | divide =>
    obtain ⟨x, y, rfl⟩ := List.length_eq_two.1 hlen
    rw [compute, quotient] at h
    split at h
    · next hzero =>
      cases h
      exact .divide (Number.beq_zero_iff.1 hzero)
    · cases h
  | squareRoot =>
    obtain ⟨x, rfl⟩ := List.length_eq_one_iff.1 hlen
    rw [compute, root] at h
    split at h
    · next hneg =>
      cases h
      exact .squareRoot _ hneg
    · cases h
  | tangent =>
    obtain ⟨x, rfl⟩ := List.length_eq_one_iff.1 hlen
    rw [compute, tangentOf] at h
    split at h <;> cases h
    exact .tangent _
  | fibonacci =>
    obtain ⟨x, rfl⟩ := List.length_eq_one_iff.1 hlen
    rw [compute, fibonacciAt] at h
    split at h
    · split at h <;> cases h
      exact .fibonacci _
    · cases h
      exact .fibonacci _
  | pascal =>
    obtain ⟨x, y, rfl⟩ := List.length_eq_two.1 hlen
    rw [compute, pascalAt] at h
    split at h
    · split at h <;> cases h
      exact .pascal _
    · cases h
      exact .pascal _

/-- Enough operands never lead to an underflow: a failure is about their
    values. -/
theorem ofValues_of_compute {operands : List Float} {failure : Failure}
    (hlen : operands.length = operation.arity) (h : operation.compute operands = .error failure) :
    failure.OfValues :=
  (rejects_of_compute hlen h).ofValues

/-- Divisions fail exactly for the zeros as divisor. -/
theorem compute_divide_iff (dividend divisor : Float) :
    (∃ failure, divide.compute [dividend, divisor] = .error failure) ↔
      divisor = 0.0 ∨ divisor = -0.0 := by
  constructor
  · rintro ⟨failure, h⟩
    cases rejects_of_compute rfl h with
    | divide hzero => exact hzero
  · intro hzero
    exact ⟨.zeroDivisor, by rw [compute, quotient, if_pos (Number.beq_zero_iff.2 hzero)]⟩

/-- Square roots fail exactly below zero. -/
theorem compute_squareRoot_iff (x : Float) :
    (∃ failure, squareRoot.compute [x] = .error failure) ↔ x < 0.0 := by
  constructor
  · rintro ⟨failure, h⟩
    cases rejects_of_compute rfl h with
    | squareRoot _ hneg => exact hneg
  · intro hneg
    exact ⟨_, by rw [compute, root, if_pos hneg]⟩

theorem compute_of_length_ne {operands : List Float} (h : operands.length ≠ operation.arity) :
    operation.compute operands = .error .underflow := by
  unfold compute
  split <;> first | rfl | exact absurd rfl h

/-- An underflow means operands of another number than the arity. -/
theorem compute_eq_underflow_iff (operation : Operation) (operands : List Float) :
    operation.compute operands = .error .underflow ↔ operands.length ≠ operation.arity := by
  constructor
  · intro h hlen
    cases ofValues_of_compute hlen h
  · exact compute_of_length_ne

/-! ## Application -/

/-- The operands are the last values. -/
theorem exists_operands (operation : Operation) {values : List Float}
    (h : operation.arity ≤ values.length) :
    ∃ below operands, values = below ++ operands ∧ operands.length = operation.arity :=
  ⟨_, _, (List.take_append_drop (values.length - operation.arity) values).symm,
    by rw [List.length_drop]; omega⟩

/-- **An operation with enough operands** replaces them by its result, or
    leaves the stack as it is. -/
theorem run_apply (below : List Float) {operands : List Float}
    (h : operands.length = operation.arity) :
    operation.apply.run (ofValues (below ++ operands)) =
      match operation.compute operands with
      | .ok result => .ok () (ofValues (below ++ [result]))
      | .error failure => .error failure (ofValues (below ++ operands)) := by
  rw [apply, ← h, EStateM.run_bind, Stack.run_take]
  rcases hc : operation.compute operands with failure | result
  · simp only [hc, EStateM.run_bind, Stack.run_pushAll]
    rfl
  · simp only [hc, Stack.run_push]

/-- An operation without enough operands leaves the stack as it is. -/
theorem run_apply_of_lt {values : List Float} (h : values.length < operation.arity) :
    operation.apply.run (ofValues values) = .error .underflow (ofValues values) := by
  rw [apply, EStateM.run_bind, Stack.run_take_of_lt h]

/-- What an operation with these operands leads to, above `below`: the result
    takes the place of the operands, or the operands stay. -/
inductive Settles (operation : Operation) (below operands : List Float) :
    EStateM.Result Failure Stack Unit → Prop
  | replaced {result : Float} : operation.compute operands = .ok result →
      Settles operation below operands (.ok () (ofValues (below ++ [result])))
  | restored {failure : Failure} : operation.compute operands = .error failure →
      operation.Rejects operands failure →
      Settles operation below operands (.error failure (ofValues (below ++ operands)))

theorem settles_apply (below : List Float) {operands : List Float}
    (h : operands.length = operation.arity) :
    operation.Settles below operands (operation.apply.run (ofValues (below ++ operands))) := by
  rw [run_apply below h]
  rcases hc : operation.compute operands with failure | result
  · exact .restored hc (rejects_of_compute h hc)
  · exact .replaced hc

/-- An operation is a transaction on a stack: without enough values it
    underflows, whatever they are; otherwise only the operands on top matter. -/
structure Transacts (operation : Operation) (stack : Stack) : Prop where
  lacking : stack.size < operation.arity →
    operation.apply.run stack = .error .underflow stack
  enough : operation.arity ≤ stack.size → ∃ below operands,
    stack.values = below ++ operands ∧ operands.length = operation.arity ∧
    operation.Settles below operands (operation.apply.run stack)

theorem transacts (operation : Operation) (stack : Stack) : operation.Transacts stack := by
  obtain ⟨values, rfl⟩ := stack.exists_ofValues
  refine ⟨fun hlt => run_apply_of_lt (by simpa using hlt), fun hle => ?_⟩
  have hle' : operation.arity ≤ values.length := by simpa using hle
  obtain ⟨below, operands, rfl, hlen⟩ := operation.exists_operands hle'
  exact ⟨below, operands, Stack.values_ofValues _, hlen, settles_apply below hlen⟩

/-- Which operands of the right number are rejected. -/
structure Domains : Prop where
  total : ∀ operation ∈ [add, subtract, multiply, power, sine, cosine], ∀ operands failure,
    ¬ operation.Rejects operands failure
  divide : ∀ dividend divisor, (∃ failure, divide.compute [dividend, divisor] = .error failure) ↔
    divisor = 0.0 ∨ divisor = -0.0
  squareRoot : ∀ x, (∃ failure, squareRoot.compute [x] = .error failure) ↔ x < 0.0
  negativeZero : ¬ (-0.0 : Float) < 0.0
  notANumber : ∀ x : Float, x.isNaN = true → ¬ x < 0.0
  /-- The last case of `compute` is for other numbers of operands only. -/
  underflow : ∀ (operation : Operation) operands,
    operation.compute operands = .error .underflow ↔ operands.length ≠ operation.arity

theorem domains : Domains where
  total operation hmem operands failure h := by
    cases h <;> simp at hmem
  divide := compute_divide_iff
  squareRoot := compute_squareRoot_iff
  negativeZero := by decide
  notANumber _ := Number.not_lt_of_isNaN
  underflow := compute_eq_underflow_iff

/-- **Names and transactions.**  A name of no operation is reported, and the
    stack stays as it is.  The name of an operation names no other, and applies
    it, which is a transaction on the stack; a failure with enough operands is
    one that the operation has on their values. -/
theorem applyNamed_transacts (name : String) (stack : Stack) :
    ((∀ operation : Operation, operation.name ≠ name) →
      (applyNamed name).run stack = .error (.unknownWord name) stack) ∧
    (∀ operation : Operation, operation.name = name →
      (∀ operation' : Operation, operation'.name = name → operation' = operation) ∧
        (applyNamed name).run stack = operation.apply.run stack ∧ operation.Transacts stack) ∧
    Domains := by
  refine ⟨fun hnone => ?_, ?_, domains⟩
  · have hname : ofName? name = none :=
      Option.eq_none_iff_forall_ne_some.2 fun operation h =>
        hnone operation (ofName?_eq_some_iff.1 h)
    rw [applyNamed, hname]
    rfl
  · rintro operation rfl
    refine ⟨fun _ => name_injective, ?_, operation.transacts stack⟩
    rw [applyNamed, ofName?_name]

/-- Names are neither folded nor trimmed nor completed. -/
example : ofName? "Sqrt" = none ∧ ofName? " +" = none ∧ ofName? "pas" = none := by decide

end Operation

end ReversePolish

/-
  The operand stack, the working memory of a calculation.

  * `Stack.values` is the view of a stack: its values, bottom first;
  * `StackM` are the computations on a stack that may fail;
  * `push`, `pop`, `take`, `pushAll` and `clear` change the stack,
    `require` only looks at it; a failure leaves the stack as it is.
-/
import ReversePolish.Failure

namespace ReversePolish

/-- An operand stack. -/
structure Stack where
  /-- The values, the top first. -/
  topFirst : List Float := []
  deriving DecidableEq, Inhabited

/-- A computation on a stack.  The stack stays as it is where the computation
    fails. -/
abbrev StackM := EStateM Failure Stack

namespace Stack

/-! ## The view of a stack -/

/-- The stack with these values, bottom first. -/
def ofValues (values : List Float) : Stack :=
  ⟨values.reverse⟩

/-- The values of the stack, bottom first. -/
def values (stack : Stack) : List Float :=
  stack.topFirst.reverse

def size (stack : Stack) : Nat :=
  stack.topFirst.length

def isEmpty (stack : Stack) : Bool :=
  stack.topFirst.isEmpty

@[simp] theorem values_ofValues (values : List Float) : (ofValues values).values = values := by
  simp [ofValues, Stack.values]

@[simp] theorem ofValues_values (stack : Stack) : ofValues stack.values = stack := by
  simp [ofValues, values]

@[simp] theorem length_values (stack : Stack) : stack.values.length = stack.size := by
  simp [values, size]

/-! ## Computations -/

/-- Put a value on top. -/
def push (value : Float) : StackM Unit :=
  fun stack => .ok () ⟨value :: stack.topFirst⟩

/-- Take the top value. -/
def pop : StackM Float
  | ⟨[]⟩ => .error .underflow ⟨[]⟩
  | ⟨value :: below⟩ => .ok value ⟨below⟩

/-- Fail unless at least `required` values are present. -/
def require (required : Nat) : StackM Unit :=
  fun stack => if stack.size < required then .error .underflow stack else .ok () stack

/-- Take the top `count` values, the bottom-most first in the answer. -/
def take (count : Nat) : StackM (List Float) := do
  require count
  fun stack => .ok (stack.topFirst.take count).reverse ⟨stack.topFirst.drop count⟩

/-- Put the values on top, the last one topmost. -/
def pushAll (values : List Float) : StackM Unit :=
  fun stack => .ok () ⟨values.reverse ++ stack.topFirst⟩

/-- Drop all values. -/
def clear : StackM Unit :=
  fun _ => .ok () {}

end Stack

end ReversePolish

/-
  Operations on the operand stack.

  * `Operation.apply` replaces the operands on top of the stack by the result,
    or fails and leaves the stack as it was;
  * `Operation.applyNamed` applies the operation with a given name.
-/
import ReversePolish.Operation.Compute
import ReversePolish.Stack.Basic

namespace ReversePolish

/-- Replace the operands on top of the stack by the result.  If there is
    none, the operands go back in their order. -/
def Operation.apply (operation : Operation) : StackM Unit := do
  let operands ← Stack.take operation.arity
  match operation.compute operands with
  | .ok result => Stack.push result
  | .error failure =>
    Stack.pushAll operands
    throw failure

/-- Apply the operation with this name. -/
def Operation.applyNamed (name : String) : StackM Unit :=
  match Operation.ofName? name with
  | some operation => operation.apply
  | none => throw (.unknownWord name)

end ReversePolish

/-
  The operations of the calculator, with their names and the number of
  operands that they take.
-/

namespace ReversePolish

/-- An operation on the operand stack. -/
inductive Operation where
  | add
  | subtract
  | multiply
  | divide
  | squareRoot
  | power
  | sine
  | cosine
  | tangent
  | fibonacci
  | pascal
  deriving DecidableEq, Repr

namespace Operation

/-- All operations, in the order in which they are listed. -/
def all : List Operation :=
  [add, subtract, multiply, divide, squareRoot, power, sine, cosine, tangent, fibonacci, pascal]

/-- The word that stands for the operation in an expression. -/
def name : Operation → String
  | add => "+"
  | subtract => "-"
  | multiply => "*"
  | divide => "/"
  | squareRoot => "sqrt"
  | power => "^"
  | sine => "sin"
  | cosine => "cos"
  | tangent => "tan"
  | fibonacci => "fib"
  | pascal => "pascal"

/-- The number of operands. -/
def arity : Operation → Nat
  | squareRoot | sine | cosine | tangent | fibonacci => 1
  | add | subtract | multiply | divide | power | pascal => 2

/-- The operation with this name. -/
def ofName? (name : String) : Option Operation :=
  all.find? fun operation => operation.name == name

end Operation

end ReversePolish

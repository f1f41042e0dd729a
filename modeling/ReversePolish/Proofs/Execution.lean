/-
  Execution of lists of tokens, on the stack alone.

  * `Token.executeAll` executes tokens up to the first failure, `Token.valueOf`
    also takes the only value that they have to leave;
  * `Token.Step` lists what executing one token can come to;
  * `Token.FailsAt` says which token fails; `Token.run_eq_error_iff` relates it
    to `Token.executeAll`;
  * `Calculator.records_evaluate`: the evaluation of an expression is
    `Token.valueOf` its tokens, with the success put on the tape, and logs no
    warning.
-/
import ReversePolish.Calculator.Evaluate
import ReversePolish.Proofs.Transaction

namespace ReversePolish

namespace Stack

/-- Take the value of a stack that has no other. -/
def takeOnly : StackM Float
  | ⟨[value]⟩ => .ok value ⟨[]⟩
  | stack => .error (.notOneValue stack.size) stack

theorem run_takeOnly (value : Float) :
    takeOnly.run (ofValues [value]) = .ok value (ofValues []) := rfl

theorem run_takeOnly_of_ne {stack : Stack} (h : stack.size ≠ 1) :
    takeOnly.run stack = .error (.notOneValue stack.size) stack := by
  match stack with
  | ⟨[]⟩ | ⟨_ :: _ :: _⟩ => rfl
  | ⟨[_]⟩ => exact absurd rfl h

theorem exists_of_size_eq_one {stack : Stack} (h : stack.size = 1) :
    ∃ value, stack = ofValues [value] := by
  obtain ⟨value, hv⟩ := List.length_eq_one_iff.1 ((length_values stack).trans h)
  exact ⟨value, by rw [← ofValues_values stack, hv]⟩

end Stack

namespace Token

open Stack (ofValues)

/-! ## Tokens -/

/-- Execute a token on the stack. -/
def execute : Token → StackM Unit
  | .number value => Stack.push value
  | .word text => Operation.applyNamed text

/-- Execute the tokens, up to the first failure. -/
def executeAll : List Token → StackM Unit
  | [] => pure ()
  | token :: tokens => do
    token.execute
    executeAll tokens

/-- Execute the tokens, which have to leave one value, and take it. -/
def valueOf (tokens : List Token) : StackM Float := do
  executeAll tokens
  Stack.takeOnly

/-- Executing the tokens on `stack` fails at the token at `position`, counted
    from `0`, and leaves the stack `left`. -/
inductive FailsAt : Stack → List Token → (position : Nat) → Failure → (left : Stack) → Prop
  | here {stack token tokens failure left} : token.execute.run stack = .error failure left →
      FailsAt stack (token :: tokens) 0 failure left
  | later {stack next token tokens position failure left} : token.execute.run stack = .ok () next →
      FailsAt next tokens position failure left →
      FailsAt stack (token :: tokens) (position + 1) failure left

/-! ## One token -/

/-- What executing a token on these values can come to. -/
inductive Step : Token → (values : List Float) → EStateM.Result Failure Stack Unit → Prop
  | number (value : Float) (values : List Float) :
      Step (.number value) values (.ok () (ofValues (values ++ [value])))
  | applied {operation : Operation} {below operands : List Float} {value : Float} :
      operands.length = operation.arity → operation.compute operands = .ok value →
      Step (.word operation.name) (below ++ operands) (.ok () (ofValues (below ++ [value])))
  | rejected {operation : Operation} {below operands : List Float} {failure : Failure} :
      operands.length = operation.arity → operation.compute operands = .error failure →
      Step (.word operation.name) (below ++ operands)
        (.error failure (ofValues (below ++ operands)))
  | lacking {operation : Operation} {values : List Float} : values.length < operation.arity →
      Step (.word operation.name) values (.error .underflow (ofValues values))
  | unknown {text : String} {values : List Float} : Operation.ofName? text = none →
      Step (.word text) values (.error (.unknownWord text) (ofValues values))

theorem execute_name (operation : Operation) :
    execute (.word operation.name) = operation.apply := by
  simp [execute, Operation.applyNamed]

/-- **Executing a token** is one of its steps. -/
theorem step_execute (token : Token) (values : List Float) :
    Step token values (token.execute.run (ofValues values)) := by
  cases token with
  | number value =>
    rw [execute, Stack.run_push]
    exact .number value values
  | word text =>
    rcases hname : Operation.ofName? text with - | operation
    · rw [execute, Operation.applyNamed, hname]
      exact .unknown hname
    obtain rfl := Operation.ofName?_eq_some_iff.1 hname
    rw [execute_name]
    by_cases hlt : values.length < operation.arity
    · rw [Operation.run_apply_of_lt hlt]
      exact .lacking hlt
    obtain ⟨below, operands, rfl, hlen⟩ := operation.exists_operands (Nat.le_of_not_lt hlt)
    rw [Operation.run_apply below hlen]
    rcases hc : operation.compute operands with failure | value
    · exact .rejected hlen hc
    · exact .applied hlen hc

/-! ## Running lists of tokens -/

variable {token : Token} {tokens tokens' : List Token} {stack later left : Stack}
  {failure : Failure}

@[simp] theorem run_executeAll_nil (stack : Stack) :
    (executeAll []).run stack = .ok () stack := rfl

theorem run_cons_of_ok (h : token.execute.run stack = .ok () later) :
    (executeAll (token :: tokens)).run stack = (executeAll tokens).run later := by
  rw [executeAll, EStateM.run_bind, h]

theorem run_cons_of_error (h : token.execute.run stack = .error failure left) :
    (executeAll (token :: tokens)).run stack = .error failure left := by
  rw [executeAll, EStateM.run_bind, h]

theorem executeAll_append (tokens tokens' : List Token) :
    executeAll (tokens ++ tokens') = executeAll tokens >>= fun _ => executeAll tokens' := by
  induction tokens with
  | nil => simp [executeAll]
  | cons token tokens ih => simp [executeAll, ih]

theorem run_append_of_ok (h : (executeAll tokens).run stack = .ok () later) :
    (executeAll (tokens ++ tokens')).run stack = (executeAll tokens').run later := by
  rw [executeAll_append, EStateM.run_bind, h]

theorem run_append_of_error (h : (executeAll tokens).run stack = .error failure left) :
    (executeAll (tokens ++ tokens')).run stack = .error failure left := by
  rw [executeAll_append, EStateM.run_bind, h]

/-! ## The failing token -/

/-- **A failure is the failure of one token.** -/
theorem run_eq_error_iff :
    (executeAll tokens).run stack = .error failure left ↔
      ∃ position, FailsAt stack tokens position failure left := by
  constructor
  · intro h
    induction tokens generalizing stack with
    | nil => cases h
    | cons token tokens ih =>
      rcases ht : token.execute.run stack with ⟨⟨⟩, next⟩ | ⟨failure', left'⟩
      · rw [run_cons_of_ok ht] at h
        obtain ⟨position, hp⟩ := ih h
        exact ⟨position + 1, .later ht hp⟩
      · rw [run_cons_of_error ht] at h
        cases h
        exact ⟨0, .here ht⟩
  · rintro ⟨position, h⟩
    induction h with
    | here ht => exact run_cons_of_error ht
    | later ht _ ih => rw [run_cons_of_ok ht, ih]

/-! ## The value of a list of tokens -/

theorem run_valueOf_of_error (h : (executeAll tokens).run stack = .error failure left) :
    (valueOf tokens).run stack = .error failure left := by
  rw [valueOf, EStateM.run_bind, h]

theorem run_valueOf_of_ok (h : (executeAll tokens).run stack = .ok () left) :
    (valueOf tokens).run stack = Stack.takeOnly.run left := by
  rw [valueOf, EStateM.run_bind, h]

theorem run_executeAll_of_valueOf {value : Float}
    (h : (valueOf tokens).run stack = .ok value left) :
    (executeAll tokens).run stack = .ok () (.ofValues [value]) ∧ left = .ofValues [] := by
  rcases he : (executeAll tokens).run stack with ⟨⟨⟩, later⟩ | ⟨failure, later⟩
  · rw [run_valueOf_of_ok he] at h
    by_cases hsize : later.size = 1
    · obtain ⟨value', rfl⟩ := Stack.exists_of_size_eq_one hsize
      cases h
      exact ⟨rfl, rfl⟩
    · rw [Stack.run_takeOnly_of_ne hsize] at h
      cases h
  · rw [run_valueOf_of_error he] at h
    cases h

/-! ## Streams -/

namespace Stream

variable {stream later : Stream} {token : Token}

theorem tokens_of_none (h : stream.next = (none, later)) : stream.tokens = [] := by
  rw [tokens]
  split <;> simp_all

theorem tokens_of_some (h : stream.next = (some token, later)) :
    stream.tokens = token :: later.tokens := by
  rw [tokens]
  split <;> simp_all

end Stream

end Token

/-! ## Outcomes -/

open Log (Record)

namespace Outcome

variable {α β : Type}

/-- The outcome is this result, with these values on the stack, bottom first,
    and this tape. -/
structure Leaves (outcome : Outcome α) (result : Except Failure α) (values : List Float)
    (tape : Tape) : Prop where
  result : outcome.result = result
  values : outcome.calculator.stack.values = values
  tape : outcome.calculator.tape = tape

theorem Leaves.stack {outcome : Outcome α} {result : Except Failure α} {values : List Float}
    {tape : Tape} (h : outcome.Leaves result values tape) :
    outcome.calculator.stack = .ofValues values := by
  rw [← h.values, Stack.ofValues_values]

theorem Leaves.calculator_eq {outcome : Outcome α} {result : Except Failure α}
    {values : List Float} {tape : Tape} (h : outcome.Leaves result values tape) :
    outcome.calculator = ⟨.ofValues values, tape⟩ := by
  rw [← h.stack, ← h.tape]

@[simp] theorem after_after (records records' : List Record) (outcome : Outcome α) :
    (outcome.after records').after records = outcome.after (records ++ records') := by
  simp [after]

theorem andThen_after (records : List Record) (outcome : Outcome α)
    (next : α → Calculator → Outcome β) :
    (outcome.after records).andThen next = (outcome.andThen next).after records := by
  rcases hr : outcome.result with failure | value <;> simp [andThen, after, hr]

end Outcome

namespace Calculator

variable {calculator : Calculator}

/-- Records of which none is a warning. -/
def Quiet (records : List Record) : Prop :=
  ∀ record ∈ records, record.level ≠ .warn

theorem quiet_append {records records' : List Record} (h : Quiet records) (h' : Quiet records') :
    Quiet (records ++ records') := by
  intro record hr
  rcases List.mem_append.1 hr with hr | hr
  · exact h record hr
  · exact h' record hr

theorem quiet_announcement (stream : Token.Stream) : Quiet stream.announcement := by
  intro record hr
  obtain ⟨chunk, -, rfl⟩ := List.mem_map.1 hr
  simp [Record.level]

theorem executeToken_eq (calculator : Calculator) (token : Token) :
    ∃ records, Quiet records ∧
      calculator.executeToken token = (calculator.onStack token.execute).after records := by
  cases token with
  | number value => exact ⟨[], by simp [Quiet], rfl⟩
  | word text => exact ⟨[.applying text calculator.stack.size], by simp [Quiet, Record.level], rfl⟩

section
variable {α : Type} {computation : StackM α} {left : Stack}

/-- A computation on the stack that succeeds, whatever is logged before it. -/
theorem leaves_onStack_of_ok {value : α} (records : List Record)
    (h : computation.run calculator.stack = .ok value left) :
    ((calculator.onStack computation).after records).Leaves (.ok value) left.values
      calculator.tape := by
  rw [onStack, h]
  exact ⟨rfl, rfl, rfl⟩

/-- A computation on the stack that fails. -/
theorem leaves_onStack_of_error {failure : Failure} (records : List Record)
    (h : computation.run calculator.stack = .error failure left) :
    ((calculator.onStack computation).after records).Leaves (.error failure) left.values
      calculator.tape := by
  rw [onStack, h]
  exact ⟨rfl, rfl, rfl⟩

end

theorem onStack_andThen {α β : Type} (calculator : Calculator) (computation : StackM α)
    (next : α → Calculator → Outcome β) :
    (calculator.onStack computation).andThen next =
      match computation.run calculator.stack with
      | .ok value stack => next value { calculator with stack }
      | .error failure stack => ⟨.error failure, { calculator with stack }, []⟩ := by
  rw [onStack]
  rcases computation.run calculator.stack with ⟨value, stack⟩ | ⟨failure, stack⟩ <;> rfl

theorem onStack_bind {α β : Type} (calculator : Calculator) (first : StackM α)
    (next : α → StackM β) :
    calculator.onStack (first >>= next) =
      (calculator.onStack first).andThen
        fun value calculator => calculator.onStack (next value) := by
  rw [onStack_andThen, onStack, EStateM.run_bind]
  rcases first.run calculator.stack with ⟨value, stack⟩ | ⟨failure, stack⟩ <;> rfl

/-! ## The loop -/

theorem execute_of_none {stream later : Token.Stream} (h : stream.next = (none, later))
    (calculator : Calculator) : calculator.execute stream = ⟨.ok (), calculator, []⟩ := by
  rw [execute]
  split <;> simp_all

theorem execute_of_some {stream later : Token.Stream} {token : Token}
    (h : stream.next = (some token, later)) (calculator : Calculator) :
    calculator.execute stream =
      ((calculator.executeToken token).after later.announcement).andThen
        fun _ calculator => calculator.execute later := by
  rw [execute]
  split <;> simp_all

/-- **The loop over a stream** executes its tokens, and logs no warning. -/
theorem execute_eq (calculator : Calculator) (stream : Token.Stream) :
    ∃ records, Quiet records ∧
      calculator.execute stream =
        (calculator.onStack (Token.executeAll stream.tokens)).after records := by
  induction stream using Token.Stream.tokens.induct generalizing calculator with
  | case1 stream later h =>
    rw [execute_of_none h, Token.Stream.tokens_of_none h]
    exact ⟨[], by simp [Quiet], rfl⟩
  | case2 stream token later h ih =>
    obtain ⟨records, hq, ht⟩ := calculator.executeToken_eq token
    have hhead : Quiet (later.announcement ++ records) := quiet_append (quiet_announcement later) hq
    rw [execute_of_some h, Token.Stream.tokens_of_some h, Token.executeAll, onStack_bind, ht,
      Outcome.after_after, Outcome.andThen_after, onStack_andThen, onStack_andThen]
    rcases token.execute.run calculator.stack with ⟨⟨⟩, stack⟩ | ⟨failure, stack⟩
    · obtain ⟨records', hq', hl⟩ := ih { calculator with stack }
      refine ⟨_, quiet_append hhead hq', ?_⟩
      simp only [hl, Outcome.after_after]
    · exact ⟨_, hhead, rfl⟩

section
variable {expression : String} {left : Stack}

/-- Tokens that succeed: the loop leaves the stack that they lead to. -/
theorem execute_of_ok
    (h : (Token.executeAll (Token.all expression)).run calculator.stack = .ok () left) :
    (calculator.execute (.ofText expression)).Leaves (.ok ()) left.values calculator.tape := by
  obtain ⟨records, -, he⟩ := calculator.execute_eq (.ofText expression)
  rw [he, ← Token.all]
  exact leaves_onStack_of_ok records h

/-- A token that fails: so does the loop, on the same stack. -/
theorem execute_of_error {failure : Failure}
    (h : (Token.executeAll (Token.all expression)).run calculator.stack = .error failure left) :
    (calculator.execute (.ofText expression)).Leaves (.error failure) left.values
      calculator.tape := by
  obtain ⟨records, -, he⟩ := calculator.execute_eq (.ofText expression)
  rw [he, ← Token.all]
  exact leaves_onStack_of_error records h

end

/-- What an evaluation of `expression` on the stack alone leads to on a
    calculator with the tape `tape`, and a log without warnings: a success goes
    on the tape. -/
inductive Records (tape : Tape) (expression : String) :
    EStateM.Result Failure Stack Float → Outcome Float → Prop
  | ok {value stack log} : Quiet log → Records tape expression (.ok value stack)
      ⟨.ok value, { stack, tape := tape.push ⟨expression, value⟩ }, log⟩
  | error {failure stack log} : Quiet log → Records tape expression (.error failure stack)
      ⟨.error failure, { stack, tape }, log⟩

namespace Records

variable {tape : Tape} {expression : String} {result : EStateM.Result Failure Stack Float}
  {outcome : Outcome Float}

theorem after (h : Records tape expression result outcome) {records : List Record}
    (hq : Quiet records) : Records tape expression result (outcome.after records) := by
  cases h with
  | ok hlog => exact .ok (quiet_append hq hlog)
  | error hlog => exact .error (quiet_append hq hlog)

theorem quiet (h : Records tape expression result outcome) : Quiet outcome.log := by
  cases h with
  | ok hlog | error hlog => exact hlog

theorem leaves_of_ok {value : Float} {left : Stack}
    (h : Records tape expression (.ok value left) outcome) :
    outcome.Leaves (.ok value) left.values (tape.push ⟨expression, value⟩) := by
  cases h
  exact ⟨rfl, rfl, rfl⟩

theorem leaves_of_error {failure : Failure} {left : Stack}
    (h : Records tape expression (.error failure left) outcome) :
    outcome.Leaves (.error failure) left.values tape := by
  cases h
  exact ⟨rfl, rfl, rfl⟩

end Records

theorem records_conclude (calculator : Calculator) (expression : String) :
    Records calculator.tape expression (Stack.takeOnly.run calculator.stack)
      (calculator.conclude expression) := by
  obtain ⟨⟨values⟩, tape⟩ := calculator
  match values with
  | [] => exact .error (by simp [Quiet])
  | [value] => exact .ok (by simp [Quiet, Record.level])
  | _ :: _ :: _ => exact .error (by simp [Quiet])

/-- **The evaluation of an expression** is that of its tokens on the stack,
    with a success put on the tape. -/
theorem records_evaluate (calculator : Calculator) (expression : String) :
    Records calculator.tape expression
      ((Token.valueOf (Token.all expression)).run calculator.stack)
      (calculator.evaluate expression) := by
  obtain ⟨records, hq, he⟩ := calculator.execute_eq (.ofText expression)
  have hhead := quiet_append (quiet_announcement (.ofText expression)) hq
  rw [evaluate, he, Outcome.after_after, Outcome.andThen_after, onStack_andThen, ← Token.all]
  rcases hr : (Token.executeAll (Token.all expression)).run calculator.stack with
    ⟨⟨⟩, stack⟩ | ⟨failure, stack⟩
  · rw [Token.run_valueOf_of_ok hr]
    exact (records_conclude { calculator with stack } expression).after hhead
  · rw [Token.run_valueOf_of_error hr]
    exact Records.after (.error (by simp [Quiet])) hhead

section
variable {expression : String} {left : Stack}

theorem evaluate_of_ok {value : Float}
    (h : (Token.valueOf (Token.all expression)).run calculator.stack = .ok value left) :
    (calculator.evaluate expression).Leaves (.ok value) left.values
      (calculator.tape.push ⟨expression, value⟩) :=
  Records.leaves_of_ok (h ▸ calculator.records_evaluate expression)

theorem evaluate_of_error {failure : Failure}
    (h : (Token.valueOf (Token.all expression)).run calculator.stack = .error failure left) :
    (calculator.evaluate expression).Leaves (.error failure) left.values calculator.tape :=
  Records.leaves_of_error (h ▸ calculator.records_evaluate expression)

theorem quiet_evaluate (calculator : Calculator) (expression : String) :
    Quiet (calculator.evaluate expression).log :=
  (calculator.records_evaluate expression).quiet

/-- Tokens that leave one value: it is the value of the expression. -/
theorem evaluate_of_one {value : Float}
    (h : (Token.executeAll (Token.all expression)).run calculator.stack =
      .ok () (.ofValues [value])) :
    (calculator.evaluate expression).Leaves (.ok value) []
      (calculator.tape.push ⟨expression, value⟩) :=
  evaluate_of_ok ((Token.run_valueOf_of_ok h).trans (Stack.run_takeOnly value))

/-- Tokens that leave no or several values: they stay on the stack. -/
theorem evaluate_of_ne
    (h : (Token.executeAll (Token.all expression)).run calculator.stack = .ok () left)
    (hsize : left.size ≠ 1) :
    (calculator.evaluate expression).Leaves (.error (.notOneValue left.size)) left.values
      calculator.tape :=
  evaluate_of_error ((Token.run_valueOf_of_ok h).trans (Stack.run_takeOnly_of_ne hsize))

/-- A failing token: the stack stays as the token leaves it. -/
theorem evaluate_of_failure {failure : Failure}
    (h : (Token.executeAll (Token.all expression)).run calculator.stack = .error failure left) :
    (calculator.evaluate expression).Leaves (.error failure) left.values calculator.tape :=
  evaluate_of_error (Token.run_valueOf_of_error h)

/-- A value comes from tokens that leave it alone on the stack. -/
theorem executeAll_of_evaluate {value : Float}
    (h : (calculator.evaluate expression).result = .ok value) :
    (Token.executeAll (Token.all expression)).run calculator.stack =
      .ok () (.ofValues [value]) := by
  rcases hr : (Token.valueOf (Token.all expression)).run calculator.stack with
    ⟨value', left⟩ | ⟨failure, left⟩
  · rw [(evaluate_of_ok hr).result] at h
    cases h
    exact (Token.run_executeAll_of_valueOf hr).1
  · rw [(evaluate_of_error hr).result] at h
    cases h

end

end Calculator

end ReversePolish

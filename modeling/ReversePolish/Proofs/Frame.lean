/-
  Values below the working part of the stack: they are neither read nor changed.

  * `Stack.above` puts values below those of a stack;
  * `Token.run_execute_above`: what a token comes to is the same above other values,
    an underflow apart;
  * `Token.Framed` says the same of a list of tokens, token for token;
  * `Calculator.ComesTo`: where the loop over a stream comes to on its way, and
    `Calculator.ComesTo.above`: it does so above other values;
  * `Calculator.execute_above`: an expression is executed in the same way above
    other values, unless it underflows.
-/
import ReversePolish.Proofs.Atomicity

namespace ReversePolish

open Stack (ofValues)

/-- The stack on top of other values. -/
def Stack.above (below : List Float) (stack : Stack) : Stack :=
  ofValues (below ++ stack.values)

/-- The calculator with its stack on top of other values. -/
def Calculator.above (below : List Float) (calculator : Calculator) : Calculator :=
  { calculator with stack := calculator.stack.above below }

theorem Stack.above_ofValues (below values : List Float) :
    (ofValues values).above below = ofValues (below ++ values) := by
  rw [above, values_ofValues]

/-- Outcomes that leave the same values, the one above others. -/
theorem Outcome.Leaves.above {α : Type} {outcome outcome' : Outcome α} {result : Except Failure α}
    {left : Stack} {tape : Tape} {below : List Float}
    (halone : outcome.Leaves result left.values tape)
    (habove : outcome'.Leaves result (left.above below).values tape) :
    outcome'.result = outcome.result ∧
      outcome'.calculator = outcome.calculator.above below := by
  refine ⟨habove.result.trans halone.result.symm, ?_⟩
  rw [habove.calculator_eq, halone.calculator_eq, Stack.ofValues_values, Stack.ofValues_values]
  rfl

namespace Token

variable {token : Token} {tokens : List Token} {stack left : Stack} {failure : Failure}
  {position : Nat}

/-! ## One token -/

/-- **A token looks at its operands only**: above other values it comes to the same,
    unless it lacks operands. -/
theorem run_execute_above (below : List Float) (token : Token) (stack : Stack) :
    (∀ left, token.execute.run stack = .ok () left →
      token.execute.run (stack.above below) = .ok () (left.above below)) ∧
    (∀ failure left, token.execute.run stack = .error failure left → failure ≠ .underflow →
      token.execute.run (stack.above below) = .error failure (left.above below)) := by
  obtain ⟨values, rfl⟩ := stack.exists_ofValues
  have hstep := step_execute token values
  rw [Stack.above_ofValues]
  generalize token.execute.run (ofValues values) = result at hstep
  cases hstep with
  | number value =>
    refine ⟨?_, ?_⟩
    · rintro left ⟨⟩
      rw [execute, Stack.run_push, Stack.above_ofValues, List.append_assoc]
    · rintro failure left ⟨⟩
  | @applied operation below' operands value hlen hc =>
    refine ⟨?_, ?_⟩
    · rintro left ⟨⟩
      rw [execute_name, ← List.append_assoc, Operation.run_apply _ hlen, hc, Stack.above_ofValues,
        ← List.append_assoc]
    · rintro failure left ⟨⟩
  | @rejected operation below' operands failure hlen hc =>
    refine ⟨?_, ?_⟩
    · rintro left ⟨⟩
    · rintro failure left ⟨⟩ -
      rw [execute_name, ← List.append_assoc, Operation.run_apply _ hlen, hc, Stack.above_ofValues,
        ← List.append_assoc]
  | lacking =>
    refine ⟨?_, ?_⟩
    · rintro left ⟨⟩
    · rintro failure left ⟨⟩ hne
      exact absurd rfl hne
  | unknown hname =>
    refine ⟨?_, ?_⟩
    · rintro left ⟨⟩
    · rintro failure left ⟨⟩ -
      rw [execute, Operation.applyNamed, hname, Stack.above_ofValues]
      rfl

/-! ## Lists of tokens -/

/-- Tokens that succeed do so above other values. -/
theorem executeAll_above (below : List Float) (h : (executeAll tokens).run stack = .ok () left) :
    (executeAll tokens).run (stack.above below) = .ok () (left.above below) := by
  induction tokens generalizing stack with
  | nil =>
    cases h
    rfl
  | cons token tokens ih =>
    rcases ht : token.execute.run stack with ⟨⟨⟩, next⟩ | ⟨failure, left'⟩
    · rw [run_cons_of_ok ht] at h
      rw [run_cons_of_ok ((run_execute_above below token stack).1 next ht)]
      exact ih h
    · rw [run_cons_of_error ht] at h
      cases h

/-- Tokens that fail do so above other values, at the same token, unless they
    underflow. -/
theorem FailsAt.above (below : List Float) (h : FailsAt stack tokens position failure left)
    (hne : failure ≠ .underflow) :
    FailsAt (stack.above below) tokens position failure (left.above below) := by
  induction h with
  | here hrun => exact .here ((run_execute_above below _ _).2 _ _ hrun hne)
  | later hrun _ ih => exact .later ((run_execute_above below _ _).1 _ hrun) (ih hne)

/-- Above other values the tokens are executed as they are on the stack alone. -/
structure Framed (below : List Float) (stack : Stack) (tokens : List Token) : Prop where
  /-- As long as they succeed, they leave what they leave on the stack alone. -/
  succeeds : ∀ count left, (executeAll (tokens.take count)).run stack = .ok () left →
    (executeAll (tokens.take count)).run (stack.above below) = .ok () (left.above below)
  fails : ∀ position failure left, FailsAt stack tokens position failure left →
    failure ≠ .underflow →
    FailsAt (stack.above below) tokens position failure (left.above below)
  /-- A token that underflows on the stack alone is reached on the same values. -/
  reaches : ∀ position left, FailsAt stack tokens position .underflow left →
    (executeAll (tokens.take position)).run (stack.above below) = .ok () (left.above below)

theorem framed (below : List Float) (stack : Stack) (tokens : List Token) :
    Framed below stack tokens where
  succeeds _ _ h := executeAll_above below h
  fails _ _ _ h hne := h.above below hne
  reaches _ _ h := executeAll_above below h.reaches.1

end Token

namespace Calculator

variable {calculator reached : Calculator} {stream later : Token.Stream} {token : Token}
  {left : Stack} {failure : Failure} {count : Nat} {expression : String}

/-! ## A token of the loop -/

theorem leaves_executeToken_of_ok (h : token.execute.run calculator.stack = .ok () left) :
    (calculator.executeToken token).Leaves (.ok ()) left.values calculator.tape := by
  obtain ⟨records, -, he⟩ := calculator.executeToken_eq token
  rw [he]
  exact leaves_onStack_of_ok records h

theorem leaves_executeToken_of_error
    (h : token.execute.run calculator.stack = .error failure left) :
    (calculator.executeToken token).Leaves (.error failure) left.values calculator.tape := by
  obtain ⟨records, -, he⟩ := calculator.executeToken_eq token
  rw [he]
  exact leaves_onStack_of_error records h

theorem run_of_executeToken_ok (hok : (calculator.executeToken token).result = .ok ()) :
    token.execute.run calculator.stack = .ok () (calculator.executeToken token).calculator.stack := by
  rcases hrun : token.execute.run calculator.stack with ⟨⟨⟩, left⟩ | ⟨failure, left⟩
  · rw [(leaves_executeToken_of_ok hrun).stack, Stack.ofValues_values]
  · rw [(leaves_executeToken_of_error hrun).result] at hok
    cases hok

/-- A token that fails leaves the stack as it is. -/
theorem run_of_executeToken_error
    (herror : (calculator.executeToken token).result = .error failure) :
    token.execute.run calculator.stack = .error failure calculator.stack := by
  rcases hrun : token.execute.run calculator.stack with ⟨⟨⟩, left⟩ | ⟨failure', left⟩
  · rw [(leaves_executeToken_of_ok hrun).result] at herror
    cases herror
  · rw [(leaves_executeToken_of_error hrun).result] at herror
    cases herror
    rw [Token.left_of_error hrun]

/-- A token that succeeds does so above other values, and leaves them below. -/
theorem executeToken_above (below : List Float)
    (hok : (calculator.executeToken token).result = .ok ()) :
    ((calculator.above below).executeToken token).result = .ok () ∧
      ((calculator.above below).executeToken token).calculator =
        (calculator.executeToken token).calculator.above below := by
  have hrun := run_of_executeToken_ok hok
  have habove : ((calculator.above below).executeToken token).Leaves _ _ _ :=
    leaves_executeToken_of_ok ((Token.run_execute_above below token calculator.stack).1 _ hrun)
  obtain ⟨hresult, hcalculator⟩ := (leaves_executeToken_of_ok hrun).above habove
  exact ⟨hresult.trans hok, hcalculator⟩

/-! ## The loop -/

/-- Executing `stream`, the loop comes to `reached` after `count` tokens, with `later` still
    to be executed. -/
inductive ComesTo : Calculator → Token.Stream → (count : Nat) → (reached : Calculator) →
    (later : Token.Stream) → Prop
  | start (calculator : Calculator) (stream : Token.Stream) :
      ComesTo calculator stream 0 calculator stream
  | next {calculator stream token rest count reached later} : stream.next = (some token, rest) →
      (calculator.executeToken token).result = .ok () →
      ComesTo (calculator.executeToken token).calculator rest count reached later →
      ComesTo calculator stream (count + 1) reached later

/-- The calculator fails at the token that the stream hands out next. -/
def FailsNext (calculator : Calculator) (stream : Token.Stream) (failure : Failure) : Prop :=
  ∃ token later, stream.next = (some token, later) ∧
    (calculator.executeToken token).result = .error failure

/-- The loop after a token that succeeds. -/
theorem execute_of_next (hnext : stream.next = (some token, later))
    (hok : (calculator.executeToken token).result = .ok ()) :
    ∃ records, calculator.execute stream =
      ((calculator.executeToken token).calculator.execute later).after records := by
  rw [execute_of_some hnext, Outcome.andThen_after, Outcome.andThen, hok]
  dsimp only
  rw [Outcome.after_after]
  exact ⟨_, rfl⟩

/-- **The loop goes on** from where it comes to. -/
theorem ComesTo.goesOn (h : calculator.ComesTo stream count reached later) :
    ∃ records, calculator.execute stream = (reached.execute later).after records := by
  induction h with
  | start calculator stream => exact ⟨[], rfl⟩
  | next hnext hok _ ih =>
    obtain ⟨records, hstep⟩ := execute_of_next hnext hok
    obtain ⟨records', hrest⟩ := ih
    rw [hstep, hrest, Outcome.after_after]
    exact ⟨_, rfl⟩

/-- **Above other values** the loop comes to the same tokens, with the same stack
    above them. -/
theorem ComesTo.above (below : List Float) (h : calculator.ComesTo stream count reached later) :
    (calculator.above below).ComesTo stream count (reached.above below) later := by
  induction h with
  | start => exact .start _ _
  | next hnext hok _ ih =>
    obtain ⟨hok', heq⟩ := executeToken_above below hok
    rw [← heq] at ih
    exact .next hnext hok' ih

/-- The token at which the loop fails is the one that fails of all its tokens. -/
theorem ComesTo.failsAt (h : calculator.ComesTo stream count reached later)
    (hfails : reached.FailsNext later failure) :
    Token.FailsAt calculator.stack stream.tokens count failure reached.stack := by
  induction h with
  | start calculator stream =>
    obtain ⟨token, later, hnext, herror⟩ := hfails
    rw [Token.Stream.tokens_of_some hnext]
    exact .here (run_of_executeToken_error herror)
  | next hnext hok _ ih =>
    rw [Token.Stream.tokens_of_some hnext]
    exact .later (run_of_executeToken_ok hok) (ih hfails)

/-- The loop comes to the token that fails. -/
theorem exists_comesTo (h : (calculator.execute stream).result = .error failure) :
    ∃ count reached later, calculator.ComesTo stream count reached later ∧
      reached.FailsNext later failure := by
  induction stream using Token.Stream.tokens.induct generalizing calculator with
  | case1 stream later hnext =>
    rw [execute_of_none hnext] at h
    cases h
  | case2 stream token later hnext ih =>
    rcases hresult : (calculator.executeToken token).result with failure' | ⟨⟩
    · rw [execute_of_some hnext, Outcome.andThen_after, Outcome.andThen, hresult] at h
      cases h
      exact ⟨0, calculator, stream, .start _ _, token, later, hnext, hresult⟩
    · obtain ⟨records, hstep⟩ := execute_of_next hnext hresult
      rw [hstep] at h
      obtain ⟨count, reached, rest, hcomes, hfails⟩ := ih h
      exact ⟨count + 1, reached, rest, .next hnext hresult hcomes, hfails⟩

/-! ## Expressions -/

/-- An expression that does not underflow is executed above other values as it is alone. -/
theorem execute_above_of_ne (below : List Float)
    (hne : (calculator.execute (.ofText expression)).result ≠ .error .underflow) :
    ((calculator.above below).execute (.ofText expression)).result =
        (calculator.execute (.ofText expression)).result ∧
      ((calculator.above below).execute (.ofText expression)).calculator =
        (calculator.execute (.ofText expression)).calculator.above below := by
  rcases hrun : (Token.executeAll (Token.all expression)).run calculator.stack with
    ⟨⟨⟩, left⟩ | ⟨failure, left⟩
  · have habove : ((calculator.above below).execute (.ofText expression)).Leaves _ _ _ :=
      execute_of_ok (Token.executeAll_above below hrun)
    exact (execute_of_ok hrun).above habove
  · have halone := execute_of_error hrun
    have hne' : failure ≠ .underflow := by
      rintro rfl
      exact hne halone.result
    obtain ⟨position, hfails⟩ := Token.run_eq_error_iff.1 hrun
    have habove : ((calculator.above below).execute (.ofText expression)).Leaves _ _ _ :=
      execute_of_error (Token.run_eq_error_iff.2 ⟨position, hfails.above below hne'⟩)
    exact halone.above habove

/-- **Other values below the stack** make no difference to an expression that does
    not underflow without them, and stay as they are.  They make none to the tokens
    before one that underflows: the loop comes to the same tokens, with the same
    stack above the other values, and goes on from there. -/
theorem execute_above (below : List Float) (calculator : Calculator) (expression : String) :
    ((calculator.execute (.ofText expression)).result ≠ .error .underflow →
      ((calculator.above below).execute (.ofText expression)).result =
        (calculator.execute (.ofText expression)).result ∧
      ((calculator.above below).execute (.ofText expression)).calculator =
        (calculator.execute (.ofText expression)).calculator.above below) ∧
    (∀ count reached later, calculator.ComesTo (.ofText expression) count reached later →
      (calculator.above below).ComesTo (.ofText expression) count (reached.above below) later ∧
      ∃ records, (calculator.above below).execute (.ofText expression) =
        ((reached.above below).execute later).after records) ∧
    ((calculator.execute (.ofText expression)).result = .error .underflow →
      ∃ count reached later, calculator.ComesTo (.ofText expression) count reached later ∧
        reached.FailsNext later .underflow ∧
        Token.FailsAt calculator.stack (Token.all expression) count .underflow reached.stack) ∧
    Token.Framed below calculator.stack (Token.all expression) := by
  refine ⟨execute_above_of_ne below, fun count reached later hcomes => ?_, fun hunderflow => ?_,
    Token.framed below calculator.stack (Token.all expression)⟩
  · exact ⟨hcomes.above below, (hcomes.above below).goesOn⟩
  · obtain ⟨count, reached, later, hcomes, hfails⟩ := exists_comesTo hunderflow
    exact ⟨count, reached, later, hcomes, hfails, hcomes.failsAt hfails⟩

end Calculator

end ReversePolish

/-
  The course of an evaluation, as it is logged.

  A stream reads one chunk ahead, so the report on a chunk comes before the one
  on executing the chunk before it.

  * `Token.executedCount` is the number of tokens that are executed, the failing
    one included;
  * `Calculator.course` is what is reported of scanning and executing chunks;
  * `Calculator.log_execute`: the loop over a stream reports the course of its
    chunks;
  * `Calculator.evaluate_reports`: the log of an evaluation.
-/
import Mathlib.Data.List.Range
import ReversePolish.Proofs.Chunks
import ReversePolish.Proofs.Execution

namespace ReversePolish

/-! ## How far tokens are executed -/

namespace Token

variable {token : Token} {tokens : List Token} {stack later left : Stack} {failure : Failure}

/-- The number of tokens that are executed, the failing one included. -/
def executedCount (stack : Stack) : List Token → Nat
  | [] => 0
  | token :: tokens =>
    match token.execute.run stack with
    | .ok _ later => executedCount later tokens + 1
    | .error _ _ => 1

/-- The size of the stack that the tokens leave. -/
def sizeAfter (stack : Stack) (tokens : List Token) : Nat :=
  match (executeAll tokens).run stack with
  | .ok _ left | .error _ left => left.size

theorem executedCount_cons_of_ok (h : token.execute.run stack = .ok () later) :
    executedCount stack (token :: tokens) = executedCount later tokens + 1 := by
  rw [executedCount, h]

theorem executedCount_cons_of_error (h : token.execute.run stack = .error failure left) :
    executedCount stack (token :: tokens) = 1 := by
  rw [executedCount, h]

theorem sizeAfter_cons_of_ok (h : token.execute.run stack = .ok () later) :
    sizeAfter stack (token :: tokens) = sizeAfter later tokens := by
  rw [sizeAfter, run_cons_of_ok h, sizeAfter]

/-- The failing token is the last one to be executed. -/
theorem FailsAt.executedCount_eq {position : Nat} (h : FailsAt stack tokens position failure left) :
    executedCount stack tokens = position + 1 := by
  induction h with
  | here hrun => exact executedCount_cons_of_error hrun
  | later hrun _ ih => rw [executedCount_cons_of_ok hrun, ih]

/-- Without a failure, all tokens are executed. -/
theorem executedCount_of_ok (h : (executeAll tokens).run stack = .ok () left) :
    executedCount stack tokens = tokens.length := by
  induction tokens generalizing stack with
  | nil => rfl
  | cons token tokens ih =>
    rcases ht : token.execute.run stack with ⟨⟨⟩, later⟩ | ⟨failure, later⟩
    · rw [run_cons_of_ok ht] at h
      rw [executedCount_cons_of_ok ht, ih h, List.length_cons]
    · rw [run_cons_of_error ht] at h
      cases h

end Token

namespace Calculator

open Log (Level Record)
open Token (executedCount sizeAfter)

/-! ## Reports -/

section
variable {α β : Type} (scanned : String → α) (applied : String → Nat → α)

/-- The report on reading ahead the chunk at `position`, if there is one. -/
def scanReports (chunks : List String) (position : Nat) : List α :=
  chunks[position]?.toList.map scanned

/-- The report on executing the chunk at `position`, if it is a word: it tells
    the size of the stack before. -/
def wordReports (stack : Stack) (chunks : List String) (position : Nat) : List α :=
  match chunks[position]?.map fun chunk => (chunk, Token.ofChunk chunk) with
  | some (chunk, .word _) =>
    [applied chunk (sizeAfter stack ((chunks.take position).map Token.ofChunk))]
  | some (_, .number _) | none => []

/-- What is reported of executing the first `count` chunks, each after the next
    one is read ahead. -/
def executionReports (stack : Stack) (chunks : List String) (count : Nat) : List α :=
  (List.range count).flatMap fun position =>
    scanReports scanned chunks (position + 1) ++ wordReports applied stack chunks position

/-- What is reported until the first `count` chunks are executed. -/
def course (stack : Stack) (chunks : List String) (count : Nat) : List α :=
  scanReports scanned chunks 0 ++ executionReports scanned applied stack chunks count

variable {scanned applied} {stack later : Stack} {chunk : String} {chunks : List String}

theorem map_scanReports (f : α → β) (position : Nat) :
    (scanReports scanned chunks position).map f = scanReports (f ∘ scanned) chunks position := by
  rw [scanReports, scanReports, List.map_map]

theorem map_wordReports (f : α → β) (position : Nat) :
    (wordReports applied stack chunks position).map f =
      wordReports (fun chunk size => f (applied chunk size)) stack chunks position := by
  rw [wordReports, wordReports]
  split <;> rfl

theorem map_course (f : α → β) (count : Nat) :
    (course scanned applied stack chunks count).map f =
      course (f ∘ scanned) (fun chunk size => f (applied chunk size)) stack chunks count := by
  simp only [course, executionReports, List.map_append, List.map_flatMap, map_scanReports,
    map_wordReports]

theorem wordReports_succ (h : (Token.ofChunk chunk).execute.run stack = .ok () later)
    (position : Nat) :
    wordReports applied stack (chunk :: chunks) (position + 1) =
      wordReports applied later chunks position := by
  rw [wordReports, wordReports, List.getElem?_cons_succ, List.take_succ_cons, List.map_cons,
    Token.sizeAfter_cons_of_ok h]

/-- The reports on the first chunk come before those on the others. -/
theorem executionReports_succ (h : (Token.ofChunk chunk).execute.run stack = .ok () later)
    (count : Nat) :
    executionReports scanned applied stack (chunk :: chunks) (count + 1) =
      scanReports scanned chunks 0 ++ wordReports applied stack (chunk :: chunks) 0 ++
        executionReports scanned applied later chunks count := by
  rw [executionReports, List.range_succ_eq_map, List.flatMap_cons, List.flatMap_map]
  simp only [wordReports_succ h]
  rfl

theorem executionReports_one :
    executionReports scanned applied stack (chunk :: chunks) 1 =
      scanReports scanned chunks 0 ++ wordReports applied stack (chunk :: chunks) 0 := by
  rw [executionReports, List.range_one, List.flatMap_singleton]
  rfl

end

/-! ## The loop -/

theorem announcement_eq (stream : Token.Stream) :
    stream.announcement = scanReports Record.scanned stream.chunks 0 := by
  match stream with
  | ⟨none, _⟩ => rfl
  | ⟨some _, _⟩ => rfl

/-- Executing the first chunk is reported if it is a word. -/
theorem executeToken_ofChunk (calculator : Calculator) (chunk : String) (chunks : List String) :
    calculator.executeToken (Token.ofChunk chunk) =
      (calculator.onStack (Token.ofChunk chunk).execute).after
        (wordReports Record.applying calculator.stack (chunk :: chunks) 0) := by
  rw [wordReports, List.getElem?_cons_zero, Option.map_some]
  rcases htoken : Token.ofChunk chunk with value | word
  · rfl
  · rw [Token.eq_of_ofChunk htoken]
    rfl

/-- **The loop over a stream** reports the course of its chunks. -/
theorem log_execute (calculator : Calculator) (stream : Token.Stream) :
    (calculator.execute stream).log =
      executionReports Record.scanned Record.applying calculator.stack stream.chunks
        (executedCount calculator.stack stream.tokens) := by
  induction stream using Token.Stream.tokens.induct generalizing calculator with
  | case1 stream later h =>
    rw [execute_of_none h, Token.Stream.tokens_of_none h]
    rfl
  | case2 stream token later h ih =>
    obtain ⟨_ | chunk, rest⟩ := stream
    · cases h
    cases h
    rw [execute_of_some rfl, Token.Stream.tokens_some, Token.Stream.chunks_some,
      calculator.executeToken_ofChunk chunk (Token.Stream.ofChars rest).chunks, announcement_eq,
      Outcome.after_after, Outcome.andThen_after, onStack_andThen]
    rcases hrun : (Token.ofChunk chunk).execute.run calculator.stack with
      ⟨⟨⟩, stack⟩ | ⟨failure, stack⟩
    · rw [Token.executedCount_cons_of_ok hrun, executionReports_succ hrun]
      exact congrArg (_ ++ ·) (ih { calculator with stack })
    · rw [Token.executedCount_cons_of_error hrun, executionReports_one]
      exact List.append_nil _

/-! ## Expressions -/

/-- The report on the value of an expression, if there is one. -/
def valueReports {α : Type} (evaluated : String → Float → α) (expression : String) :
    Except Failure Float → List α
  | .ok value => [evaluated expression value]
  | .error _ => []

theorem log_conclude (calculator : Calculator) (expression : String) :
    (calculator.conclude expression).log =
      valueReports Record.evaluated expression (calculator.conclude expression).result := by
  rw [conclude]
  split <;> rfl

/-- **The log of an evaluation**: the course of its chunks, and the value. -/
theorem log_evaluate (calculator : Calculator) (expression : String) :
    (calculator.evaluate expression).log =
      course Record.scanned Record.applying calculator.stack (Text.chunks expression)
          (executedCount calculator.stack (Token.all expression)) ++
        valueReports Record.evaluated expression (calculator.evaluate expression).result := by
  have hchunks : (Token.Stream.ofText expression).chunks = Text.chunks expression :=
    Token.Stream.chunks_ofChars _
  have hlog := calculator.log_execute (.ofText expression)
  rw [hchunks, ← Token.all] at hlog
  rw [evaluate, Outcome.andThen_after, announcement_eq, hchunks, course, ← hlog]
  rcases hresult : (calculator.execute (.ofText expression)).result with failure | ⟨⟩
  · simp only [Outcome.andThen, hresult, Outcome.after, valueReports, List.append_nil]
  · simp only [Outcome.andThen, hresult, Outcome.after, log_conclude, List.append_assoc]

/-- What a log shows of a record. -/
def shown (record : Record) : Level × String :=
  (record.level, record.message)

theorem flatMap_toList_eq_take {α : Type} (xs : List α) (count : Nat) :
    ((List.range count).flatMap fun position => xs[position]?.toList) = xs.take count := by
  induction count with
  | zero => rfl
  | succ count ih =>
    rw [List.range_succ, List.flatMap_append, ih, List.flatMap_singleton, List.take_add_one]

/-- What is scanned in the course of executing `count` chunks: these, and the
    next one. -/
theorem scanned_course (stack : Stack) (chunks : List String) (count : Nat) :
    (course Record.scanned Record.applying stack chunks count).filter (·.level = .trace) =
      (chunks.take (count + 1)).map .scanned := by
  have hscanned : ∀ position,
      (scanReports Record.scanned chunks position).filter (·.level = .trace) =
        chunks[position]?.toList.map .scanned := by
    intro position
    rw [scanReports]
    rcases chunks[position]? with - | chunk <;> rfl
  have hwords : ∀ position,
      (wordReports Record.applying stack chunks position).filter (·.level = .trace) = [] := by
    intro position
    rw [wordReports]
    split <;> rfl
  rw [course, executionReports, List.filter_append, List.filter_flatMap, hscanned]
  simp only [List.filter_append, hscanned, hwords, List.append_nil]
  rw [← flatMap_toList_eq_take, List.range_succ_eq_map, List.flatMap_cons, List.flatMap_map,
    List.map_append, List.map_flatMap]

/-- **The log of an evaluation**, in words.  The first chunk is reported as
    scanned; then, for each of the `count` tokens that are executed, the next
    chunk is, and if the token is a word, that it is dispatched, with the size of
    the stack before.  At the end a success is reported.  The executed tokens are
    those up to the failing one, or all; with the next one, if there is one,
    they are the scanned ones. -/
theorem evaluate_reports (calculator : Calculator) (expression : String) :
    let chunks := Text.chunks expression
    let outcome := calculator.evaluate expression
    let count := executedCount calculator.stack (chunks.map Token.ofChunk)
    outcome.log.map shown =
      course (fun chunk => (Level.trace, s!"scanned '{chunk}'"))
          (fun word size => (Level.debug, s!"dispatching '{word}' with {size} values on the stack"))
          calculator.stack chunks count ++
        valueReports (fun text value => (Level.debug, s!"'{text}' evaluated to {Number.text value}"))
          expression outcome.result ∧
    outcome.log.filter (·.level = .trace) = (chunks.take (count + 1)).map .scanned ∧
    (outcome.log.filter (·.level = .trace)).length = min (count + 1) chunks.length ∧
    (∀ position failure left,
      Token.FailsAt calculator.stack (chunks.map Token.ofChunk) position failure left →
        count = position + 1) ∧
    ∀ left, (Token.executeAll (chunks.map Token.ofChunk)).run calculator.stack = .ok () left →
      count = chunks.length := by
  intro chunks outcome count
  have hlog : outcome.log = course Record.scanned Record.applying calculator.stack chunks count ++
      valueReports Record.evaluated expression outcome.result := by
    rw [log_evaluate, Token.all_eq_map]
  have hscanned : outcome.log.filter (·.level = .trace) =
      (chunks.take (count + 1)).map .scanned := by
    have hvalue : (valueReports Record.evaluated expression outcome.result).filter
        (·.level = .trace) = [] := by
      rcases outcome.result with failure | value <;> rfl
    rw [hlog, List.filter_append, scanned_course, hvalue, List.append_nil]
  refine ⟨?_, hscanned, ?_, fun _ _ _ h => h.executedCount_eq, fun left h => ?_⟩
  · rw [hlog, List.map_append, map_course]
    congr 1
    rcases outcome.result with failure | value <;> rfl
  · rw [hscanned, List.length_map, List.length_take]
  · rw [← List.length_map Token.ofChunk]
    exact Token.executedCount_of_ok h

/-- After a failure, one more chunk has been scanned than executed. -/
theorem quotient_reports :
    Token.FailsAt {} ((Text.chunks "5 0 / 7").map Token.ofChunk) 2 .zeroDivisor
        (Stack.ofValues [5.0, 0.0]) ∧
      (evaluate {} "5 0 / 7").log.map shown =
        [(.trace, "scanned '5'"), (.trace, "scanned '0'"), (.trace, "scanned '/'"),
          (.trace, "scanned '7'"), (.debug, "dispatching '/' with 2 values on the stack")] := by
  have hchunks : Text.chunks "5 0 / 7" = ["5", "0", "/", "7"] := by decide +kernel
  have hfails : Token.FailsAt {} ((Text.chunks "5 0 / 7").map Token.ofChunk) 2 .zeroDivisor
      (Stack.ofValues [5.0, 0.0]) := by
    rw [hchunks]
    exact .later rfl (.later rfl (.here rfl))
  obtain ⟨hlog, -, -, hcount, -⟩ := evaluate_reports {} "5 0 / 7"
  rw [hcount _ _ _ hfails, hchunks] at hlog
  refine ⟨hfails, hlog.trans ?_⟩
  rw [← Token.all_eq_map] at hfails
  have hleaves : (evaluate {} "5 0 / 7").Leaves (.error .zeroDivisor) _ _ :=
    evaluate_of_failure (Token.run_eq_error_iff.2 ⟨2, hfails⟩)
  rw [hleaves.result]
  decide +kernel

end Calculator

end ReversePolish

/-
  Postfix notation: evaluating an expression is evaluating the tree that it is
  the post-order of.

  * `Tree.run_tokens` and `Tree.FirstFailure.run_tokens`: the tokens of a tree
    leave its value on the stack, or fail where the tree fails;
  * `Tree.exists_forest`: what executes without failure is the post-order of
    trees, whose values are the stack;
  * `Calculator.evaluate_postorder`: the evaluation of a tree in post-order;
  * `Calculator.evaluate_reads_tree`: only the post-order of a tree has a value,
    and the tree is unique.
-/
import ReversePolish.Proofs.Execution
import ReversePolish.Proofs.Tree

namespace ReversePolish

open Stack (ofValues)
open Token (executeAll)

namespace Tree

/-! ## From trees to stacks -/

/-- Executing the root of a tree on the values of its operands. -/
theorem run_root {t : Tree Float} {xs : List Float} (h : t.operands.map value = xs.map .ok)
    (below : List Float) :
    t.root.execute.run (ofValues (below ++ xs)) =
      match t.value with
      | .ok x => .ok () (ofValues (below ++ [x]))
      | .error failure => .error failure (ofValues (below ++ xs)) := by
  cases t with
  | leaf x =>
    obtain rfl : xs = [] := by simpa [Tree.operands] using h.symm
    rw [List.append_nil]
    exact Stack.run_push x below
  | node operation operands =>
    have hlen : xs.length = operation.arity := by
      rw [← length_operands_node operands, ← List.length_map value, h, List.length_map]
    rw [root, Token.execute_name, value_node_of_ok h]
    exact Operation.run_apply below hlen

theorem run_forest_of {forest : List (Tree Float)} {xs : List Float}
    (hrun : ∀ t ∈ forest, ∀ x, t.value = .ok x → ∀ below,
      (executeAll t.tokens).run (ofValues below) = .ok () (ofValues (below ++ [x])))
    (h : forest.map value = xs.map .ok) (below : List Float) :
    (executeAll (forest.flatMap tokens)).run (ofValues below) =
      .ok () (ofValues (below ++ xs)) := by
  induction forest generalizing xs below with
  | nil =>
    obtain rfl : xs = [] := by simpa using h.symm
    simp
  | cons t forest ih =>
    obtain ⟨x, xs, rfl, hx, hxs⟩ := List.map_eq_cons_iff.1 h.symm
    rw [List.flatMap_cons, Token.run_append_of_ok (hrun t (by simp) x hx.symm below),
      ih (fun t ht => hrun t (by simp [ht])) hxs.symm, List.append_assoc]
    rfl

/-- **The tokens of a tree** put its value on the stack. -/
theorem run_tokens {t : Tree Float} {x : Float} (h : t.value = .ok x) (below : List Float) :
    (executeAll t.tokens).run (ofValues below) = .ok () (ofValues (below ++ [x])) := by
  induction t generalizing x below with
  | leaf y =>
    cases h
    rw [tokens_eq]
    exact Token.run_cons_of_ok (Stack.run_push y below)
  | node operation operands ih =>
    obtain ⟨xs, hxs, -⟩ := exists_operands_of_value h
    have hforest := run_forest_of (fun t ht y hy below => by
      obtain ⟨i, rfl⟩ := (List.mem_ofFn' ..).1 ht
      exact ih i hy below) hxs below
    have hroot := run_root hxs below
    rw [h] at hroot
    rw [tokens_eq, Token.run_append_of_ok hforest, Token.run_cons_of_ok hroot]
    rfl

theorem run_forest {forest : List (Tree Float)} {xs : List Float}
    (h : forest.map value = xs.map .ok) (below : List Float) :
    (executeAll (forest.flatMap tokens)).run (ofValues below) =
      .ok () (ofValues (below ++ xs)) :=
  run_forest_of (fun _ _ _ hx below => run_tokens hx below) h below

/-- The tokens of a tree fail where a node fails whose predecessors do not. -/
theorem At.run_tokens {t node : Tree Float} {before trees : List (Tree Float)}
    (hat : t.At before trees node) {failure : Failure} (hfail : node.value = .error failure)
    {waiting operands : List Float} (htrees : trees.map value = waiting.map .ok)
    (hops : node.operands.map value = operands.map .ok) (below : List Float) :
    (executeAll t.tokens).run (ofValues below) =
      .error failure (ofValues (below ++ (waiting ++ operands))) := by
  induction hat generalizing waiting below with
  | root t =>
    obtain rfl : waiting = [] := by simpa using htrees.symm
    have hroot := run_root hops below
    rw [hfail] at hroot
    rw [tokens_eq, Token.run_append_of_ok (run_forest hops below), Token.run_cons_of_error hroot]
    rfl
  | @operand t s node done todo before trees hs _ ih =>
    rw [List.map_append] at htrees
    obtain ⟨xs, ys, rfl, hxs, hys⟩ := List.map_eq_append_iff.1 htrees.symm
    rw [tokens_eq, hs, List.flatMap_append, List.append_assoc,
      Token.run_append_of_ok (run_forest hxs.symm below), List.flatMap_cons, List.append_assoc,
      Token.run_append_of_error (ih hfail hys.symm hops (below ++ xs))]
    simp

theorem FirstFailure.run_tokens {t node : Tree Float} {failure : Failure}
    {waiting operands : List Float} (h : t.FirstFailure node failure waiting operands)
    (below : List Float) :
    (executeAll t.tokens).run (ofValues below) =
      .error failure (ofValues (below ++ (waiting ++ operands))) := by
  obtain ⟨before, after, trees, -, -, hat, htrees⟩ := h.first
  exact hat.run_tokens h.fails htrees h.operands_value below

/-! ## From stacks to trees -/

/-- A token that executes without failure makes a tree of the last trees. -/
theorem exists_forest_step {token : Token} {forest : List (Tree Float)} {values : List Float}
    (hforest : forest.map value = values.map .ok) {next : Stack}
    (h : token.execute.run (ofValues values) = .ok () next) :
    ∃ forest' : List (Tree Float), forest'.flatMap tokens = forest.flatMap tokens ++ [token] ∧
      forest'.map value = next.values.map .ok := by
  have hstep := Token.step_execute token values
  rw [h] at hstep
  cases hstep with
  | number x =>
    exact ⟨forest ++ [leaf x], by simp [tokens_eq, root, Tree.operands], by simp [hforest, value]⟩
  | @applied operation below xs x hlen hc =>
    -- the values of the operands belong to the last trees
    rw [List.map_append] at hforest
    obtain ⟨trees, ops, rfl, htrees, hops⟩ := List.map_eq_append_iff.1 hforest
    have hops_len : ops.length = operation.arity := by
      rw [← hlen, ← List.length_map value, hops, List.length_map]
    refine ⟨trees ++ [ofOperands operation ops hops_len], ?_, ?_⟩
    · simp [tokens_ofOperands]
    · simp [htrees, value_ofOperands_of_ok hops_len hops, hc]

/-- **What executes without failure** is the post-order of trees, whose values
    are the stack. -/
theorem exists_forest {toks : List Token} {forest : List (Tree Float)} {values : List Float}
    (hforest : forest.map value = values.map .ok) {left : Stack}
    (h : (executeAll toks).run (ofValues values) = .ok () left) :
    ∃ forest' : List (Tree Float), forest'.flatMap tokens = forest.flatMap tokens ++ toks ∧
      forest'.map value = left.values.map .ok := by
  induction toks generalizing forest values with
  | nil =>
    cases h
    exact ⟨forest, by simp, by simpa using hforest⟩
  | cons token toks ih =>
    rcases ht : token.execute.run (ofValues values) with ⟨⟨⟩, next⟩ | ⟨failure, next⟩
    · rw [Token.run_cons_of_ok ht, ← Stack.ofValues_values next] at h
      obtain ⟨forest₁, htoks₁, hvalues₁⟩ := exists_forest_step hforest ht
      obtain ⟨forest₂, htoks₂, hvalues₂⟩ := ih hvalues₁ h
      exact ⟨forest₂, by rw [htoks₂, htoks₁]; simp, hvalues₂⟩
    · rw [Token.run_cons_of_error ht] at h
      cases h

end Tree

namespace Calculator

/-! ## Expressions -/

/-- **Unique reading.**  An expression with a value completes the values on the
    stack, as leaves, to the post-order of exactly one tree.  No node of the tree
    fails, and its value is that of the expression. -/
theorem evaluate_reads_tree {calculator : Calculator} {expression : String} {value : Float}
    (h : (calculator.evaluate expression).result = .ok value) :
    ∃ t : Tree Float,
      t.tokens = calculator.stack.values.map .number ++ Token.all expression ∧
      t.value = .ok value ∧ (∀ node ∈ t.subtrees, ∃ x, node.value = .ok x) ∧
      ∀ t' : Tree Float,
        t'.tokens = calculator.stack.values.map .number ++ Token.all expression → t' = t := by
  have hrun := executeAll_of_evaluate h
  rw [← Stack.ofValues_values calculator.stack] at hrun
  have hleaves : (calculator.stack.values.map Tree.leaf).map Tree.value =
      calculator.stack.values.map .ok := by
    rw [List.map_map]
    rfl
  obtain ⟨forest, htoks, hvalues⟩ := Tree.exists_forest hleaves hrun
  obtain ⟨t, rfl, ht⟩ := List.map_eq_singleton_iff.1 hvalues
  have hnumbers : (calculator.stack.values.map Tree.leaf).flatMap Tree.tokens =
      calculator.stack.values.map .number := by
    rw [List.flatMap_map]
    exact List.map_eq_flatMap.symm
  rw [hnumbers, List.flatMap_singleton] at htoks
  refine ⟨t, htoks, ht, Tree.value_of_mem_subtrees ht, fun t' ht' => ?_⟩
  have hforest : [t'].flatMap Tree.tokens = [t].flatMap Tree.tokens := by
    rw [List.flatMap_singleton, List.flatMap_singleton, ht', htoks]
  exact List.singleton_inj.1 (Tree.forest_eq_of_tokens_eq hforest)

theorem all_subtraction : Token.all "5 -" = [.number 5.0, .word "-"] := by
  have hspaced : Text.Spaced ["5", "-"] "5 -" :=
    ⟨[], _, [], Text.isGap_of_all rfl,
      .cons "5" [' '] (by simp) (Text.isGap_of_all rfl) (.one "-"),
      Text.isGap_of_all rfl, rfl⟩
  have hfive : Text.IsChunk "5" := Numeral.isChunk ⟨"5", 5.0, rfl⟩
  have hminus : Text.IsChunk "-" := Operation.subtract.isChunk_name
  rw [Token.all_of_spaced (by simp [hfive, hminus]) hspaced]
  rfl

theorem evaluate_subtraction : (evaluate ⟨ofValues [12.0], {}⟩ "5 -").result = .ok 7.0 := by
  have hsub : Operation.subtract.compute [12.0, 5.0] = .ok 7.0 := by decide +kernel
  have hpush : (Token.execute (.number 5.0)).run (ofValues [12.0]) =
      .ok () (ofValues [12.0, 5.0]) :=
    Stack.run_push 5.0 [12.0]
  have happly : Operation.subtract.apply.run (ofValues [12.0, 5.0]) = .ok () (ofValues [7.0]) := by
    have h := @Operation.run_apply .subtract [] [12.0, 5.0] rfl
    rwa [hsub] at h
  have hrun : (executeAll (Token.all "5 -")).run (ofValues [12.0]) = .ok () (ofValues [7.0]) := by
    rw [all_subtraction, Token.run_cons_of_ok hpush]
    exact Token.run_cons_of_ok happly
  have hleaves : (evaluate ⟨ofValues [12.0], {}⟩ "5 -").Leaves (.ok 7.0) [] _ :=
    evaluate_of_one hrun
  exact hleaves.result

/-- A value on the stack is the first operand. -/
theorem subtraction_reads_tree :
    (evaluate ⟨ofValues [12.0], {}⟩ "5 -").result = .ok 7.0 ∧
      ∃ t : Tree Float, t.tokens = [.number 12.0, .number 5.0, .word "-"] ∧ t.value = .ok 7.0 ∧
        ∀ t' : Tree Float, t'.tokens = [.number 12.0, .number 5.0, .word "-"] → t' = t := by
  obtain ⟨t, htoks, hvalue, -, hunique⟩ := evaluate_reads_tree evaluate_subtraction
  rw [all_subtraction] at htoks hunique
  exact ⟨evaluate_subtraction, t, htoks, hvalue, hunique⟩

end Calculator

end ReversePolish

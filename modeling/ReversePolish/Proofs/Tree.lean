/-
  Expression trees, whose nodes have as many operands as their operation takes.

  * `Tree.postorder` writes a tree down in post-order; `Tree.tokens` are the
    tokens of a tree of numbers, `Tree.chunks` the chunks of a tree of numerals;
  * `Tree.value` is the value of a tree, or the first failure of its nodes;
  * `Tree.At` says where a node stands in post-order, and which subtrees are
    complete by then and wait for the rest of the operands of their node;
  * `Tree.exists_firstFailure`: a tree without a value has a first node that
    fails;
  * `Tree.forest_eq_of_tokens_eq`: trees can be read back from their tokens.
-/
import Mathlib.Data.List.OfFn
import ReversePolish.Proofs.Numeral
import ReversePolish.Proofs.Transaction

namespace ReversePolish

/-- An expression tree with leaves in `α`. -/
inductive Tree (α : Type) where
  | leaf (a : α)
  | node (operation : Operation) (operands : Fin operation.arity → Tree α)

namespace Tree

variable {α β γ : Type}

/-- The operands at the root, in the order in which they are pushed. -/
def operands : Tree α → List (Tree α)
  | leaf _ => []
  | node _ operands => List.ofFn operands

/-- The tree with other leaves. -/
def map (f : α → β) : Tree α → Tree β
  | leaf a => leaf (f a)
  | node operation operands => node operation fun i => (operands i).map f

/-- The node of an operation with as many operands as it takes. -/
def ofOperands (operation : Operation) (operands : List (Tree α))
    (h : operands.length = operation.arity) : Tree α :=
  node operation fun i => operands[i]

@[simp] theorem operands_ofOperands (operation : Operation) (operands : List (Tree α))
    (h : operands.length = operation.arity) :
    (ofOperands operation operands h).operands = operands :=
  List.ext_getElem (by simp [ofOperands, Tree.operands, h]) (by simp [ofOperands, Tree.operands])

theorem length_operands_node {operation : Operation} (operands : Fin operation.arity → Tree α) :
    (node operation operands).operands.length = operation.arity := by
  simp [Tree.operands]

/-! ## Post-order -/

/-- The tree in post-order, its leaves and operations written as they are by
    the two functions. -/
def postorder (ofLeaf : α → γ) (ofOperation : Operation → γ) : Tree α → List γ
  | leaf a => [ofLeaf a]
  | node operation operands =>
    (List.ofFn fun i => (operands i).postorder ofLeaf ofOperation).flatten ++
      [ofOperation operation]

/-- The tokens of a tree of numbers. -/
def tokens : Tree Float → List Token :=
  postorder .number fun operation => .word operation.name

/-- The chunks of a tree of numerals. -/
def chunks : Tree Numeral → List String :=
  postorder Numeral.text Operation.name

/-- The tree of the numbers that numerals stand for. -/
def numbers : Tree Numeral → Tree Float :=
  map Numeral.value

/-- The nodes in post-order, as the trees whose roots they are. -/
def subtrees : Tree α → List (Tree α)
  | leaf a => [leaf a]
  | node operation operands =>
    (List.ofFn fun i => (operands i).subtrees).flatten ++ [node operation operands]

theorem postorder_node (ofLeaf : α → γ) (ofOperation : Operation → γ) (operation : Operation)
    (operands : Fin operation.arity → Tree α) :
    (node operation operands).postorder ofLeaf ofOperation =
      (node operation operands).operands.flatMap (postorder ofLeaf ofOperation) ++
        [ofOperation operation] := by
  simp only [postorder, Tree.operands, List.flatMap, List.map_ofFn]
  rfl

theorem subtrees_eq (t : Tree α) : t.subtrees = t.operands.flatMap subtrees ++ [t] := by
  cases t with
  | leaf a => rfl
  | node operation operands =>
    simp only [subtrees, Tree.operands, List.flatMap, List.map_ofFn]
    rfl

/-- The token of the root. -/
def root : Tree Float → Token
  | leaf x => .number x
  | node operation _ => .word operation.name

theorem tokens_eq (t : Tree Float) : t.tokens = t.operands.flatMap tokens ++ [t.root] := by
  cases t with
  | leaf x => rfl
  | node operation operands => exact postorder_node ..

theorem tokens_ofOperands (operation : Operation) (operands : List (Tree Float))
    (h : operands.length = operation.arity) :
    (ofOperands operation operands h).tokens =
      operands.flatMap tokens ++ [.word operation.name] := by
  rw [tokens_eq, operands_ofOperands]
  rfl

theorem map_postorder {δ : Type} (f : γ → δ) (ofLeaf : α → γ) (ofOperation : Operation → γ)
    (t : Tree α) :
    (t.postorder ofLeaf ofOperation).map f = t.postorder (f ∘ ofLeaf) (f ∘ ofOperation) := by
  induction t with
  | leaf a => rfl
  | node operation operands ih =>
    simp only [postorder, List.map_append, List.map_flatten, List.map_ofFn, Function.comp_def, ih]
    rfl

theorem postorder_map (f : α → β) (ofLeaf : β → γ) (ofOperation : Operation → γ) (t : Tree α) :
    (t.map f).postorder ofLeaf ofOperation = t.postorder (ofLeaf ∘ f) ofOperation := by
  induction t with
  | leaf a => rfl
  | node operation operands ih => simp only [map, postorder, ih]

/-- The chunks of a tree are read as its tokens. -/
theorem map_ofChunk_chunks (t : Tree Numeral) : t.chunks.map Token.ofChunk = t.numbers.tokens := by
  rw [chunks, map_postorder, numbers, tokens, postorder_map]
  congr 1
  · funext numeral
    exact numeral.ofChunk_text
  · funext operation
    exact operation.ofChunk_name

theorem isChunk_of_mem_chunks (t : Tree Numeral) : ∀ chunk ∈ t.chunks, Text.IsChunk chunk := by
  induction t with
  | leaf numeral =>
    intro chunk h
    rw [List.mem_singleton.1 h]
    exact numeral.isChunk
  | node operation operands ih =>
    intro chunk h
    rw [chunks, postorder_node] at h
    rcases List.mem_append.1 h with h | h
    · obtain ⟨s, hs, hc⟩ := List.mem_flatMap.1 h
      obtain ⟨i, rfl⟩ := (List.mem_ofFn' ..).1 hs
      exact ih i chunk hc
    · rw [List.mem_singleton.1 h]
      exact operation.isChunk_name

/-! ## Values -/

section
variable {ε : Type}

theorem sequence_eq_ok {results : List (Except ε α)} {xs : List α}
    (h : results.mapM id = .ok xs) : results = xs.map .ok := by
  induction results generalizing xs with
  | nil => cases h; rfl
  | cons result results ih =>
    rw [List.mapM_cons] at h
    rcases result with e | x
    · cases h
    · rcases hr : results.mapM id with e | ys
      · rw [hr] at h; cases h
      · rw [hr] at h; cases h
        rw [ih hr]; rfl

theorem sequence_map_ok (xs : List α) :
    (xs.map Except.ok : List (Except ε α)).mapM id = .ok xs := by
  induction xs with
  | nil => rfl
  | cons x xs ih => rw [List.map_cons, List.mapM_cons, ih]; rfl

end

/-- The value of a tree: the result of the operation at its root on the values
    of the operands.  The first failure in post-order is final. -/
def value : Tree Float → Except Failure Float
  | leaf x => .ok x
  | node operation operands => do
    operation.compute (← (List.ofFn fun i => (operands i).value).mapM id)

theorem value_node (operation : Operation) (operands : Fin operation.arity → Tree Float) :
    (node operation operands).value =
      ((node operation operands).operands.map value).mapM id >>= operation.compute := by
  simp only [value, Tree.operands, List.map_ofFn]
  rfl

theorem value_node_of_ok {operation : Operation} {operands : Fin operation.arity → Tree Float}
    {xs : List Float} (h : (node operation operands).operands.map value = xs.map .ok) :
    (node operation operands).value = operation.compute xs := by
  rw [value_node, h, sequence_map_ok]
  rfl

theorem value_ofOperands_of_ok {operation : Operation} {operands : List (Tree Float)}
    (hlen : operands.length = operation.arity) {xs : List Float}
    (h : operands.map value = xs.map .ok) :
    (ofOperands operation operands hlen).value = operation.compute xs := by
  have hops := operands_ofOperands operation operands hlen
  exact value_node_of_ok ((congrArg (List.map value) hops).trans h)

theorem exists_operands_of_value {operation : Operation}
    {operands : Fin operation.arity → Tree Float} {x : Float}
    (h : (node operation operands).value = .ok x) :
    ∃ xs, (node operation operands).operands.map value = xs.map .ok ∧
      operation.compute xs = .ok x := by
  rw [value_node] at h
  rcases hs : ((node operation operands).operands.map value).mapM id with failure | xs
  · rw [hs] at h; cases h
  · rw [hs] at h
    exact ⟨xs, sequence_eq_ok hs, h⟩

theorem exists_value_of_mem {trees : List (Tree Float)} {xs : List Float}
    (h : trees.map value = xs.map .ok) {t : Tree Float} (ht : t ∈ trees) :
    ∃ x, t.value = .ok x := by
  have hv : t.value ∈ xs.map Except.ok := h ▸ List.mem_map_of_mem ht
  obtain ⟨x, -, hx⟩ := List.mem_map.1 hv
  exact ⟨x, hx.symm⟩

/-- All nodes of a tree with a value have one. -/
theorem value_of_mem_subtrees {t : Tree Float} {x : Float} (h : t.value = .ok x) :
    ∀ s ∈ t.subtrees, ∃ y, s.value = .ok y := by
  induction t generalizing x with
  | leaf y =>
    intro s hs
    rw [List.mem_singleton.1 hs]
    exact ⟨y, rfl⟩
  | node operation operands ih =>
    obtain ⟨xs, hxs, -⟩ := exists_operands_of_value h
    intro s hs
    rw [subtrees_eq] at hs
    rcases List.mem_append.1 hs with hs | hs
    · obtain ⟨u, hu, hsu⟩ := List.mem_flatMap.1 hs
      obtain ⟨y, hy⟩ := exists_value_of_mem hxs hu
      obtain ⟨i, rfl⟩ := (List.mem_ofFn' ..).1 hu
      exact ih i hy s hsu
    · rw [List.mem_singleton.1 hs]
      exact ⟨x, h⟩

/-! ## The first failure -/

/-- The node `node` stands in `t` after the nodes `before` in post-order, its
    own operands included.  When its turn comes, the subtrees `waiting` of `t`
    are complete, and wait for further operands of their node. -/
inductive At : Tree α → (before waiting : List (Tree α)) → (node : Tree α) → Prop
  | root (t : Tree α) : At t (t.operands.flatMap subtrees) [] t
  | operand {t s node : Tree α} {done todo before waiting : List (Tree α)} :
      t.operands = done ++ s :: todo → At s before waiting node →
      At t (done.flatMap subtrees ++ before) (done ++ waiting) node

theorem At.subtrees_eq {t node : Tree α} {before waiting : List (Tree α)}
    (h : t.At before waiting node) : ∃ after, t.subtrees = before ++ node :: after := by
  induction h with
  | root t => exact ⟨[], t.subtrees_eq⟩
  | @operand t s node done todo before waiting hops _ ih =>
    obtain ⟨after, ha⟩ := ih
    refine ⟨after ++ (todo.flatMap subtrees ++ [t]), ?_⟩
    rw [t.subtrees_eq, hops, List.flatMap_append, List.flatMap_cons, ha]
    simp

/-- **The first failing node.**  The node `node` is the first in post-order
    that fails, with `failure`.  The values `waiting` are those of the complete
    subtrees that wait for further operands of their node, the outermost first,
    and the values `operands` those of the operands of `node`. -/
structure FirstFailure (t node : Tree Float) (failure : Failure) (waiting operands : List Float) :
    Prop where
  fails : node.value = .error failure
  first : ∃ before after trees, t.subtrees = before ++ node :: after ∧
    (∀ s ∈ before, ∃ x, s.value = .ok x) ∧
    t.At before trees node ∧ trees.map value = waiting.map .ok
  operands_value : node.operands.map value = operands.map .ok

theorem length_operands_of_root {t t' : Tree Float} (h : t.root = t'.root) :
    t.operands.length = t'.operands.length := by
  cases t with
  | leaf x =>
    cases t' with
    | leaf y => rfl
    | node operation operands => cases h
  | node operation operands =>
    cases t' with
    | leaf y => cases h
    | node operation' operands' =>
      rw [length_operands_node, length_operands_node, Operation.name_injective (Token.word.inj h)]

theorem eq_of_root_of_operands {t t' : Tree Float} (hroot : t.root = t'.root)
    (hops : t.operands = t'.operands) : t = t' := by
  cases t with
  | leaf x =>
    cases t' with
    | leaf y => rw [Token.number.inj hroot]
    | node operation operands => cases hroot
  | node operation operands =>
    cases t' with
    | leaf y => cases hroot
    | node operation' operands' =>
      obtain rfl := Operation.name_injective (Token.word.inj hroot)
      rw [List.ofFn_injective hops]

/-- **Trees can be read back from their tokens**, also several in a row. -/
theorem forest_eq_of_tokens_eq {forest forest' : List (Tree Float)}
    (h : forest.flatMap tokens = forest'.flatMap tokens) : forest = forest' := by
  induction hn : (forest.flatMap tokens).length using Nat.strong_induction_on
    generalizing forest forest' with
  | _ n ih =>
    have hlast : ∀ (trees : List (Tree Float)) (t : Tree Float),
        (trees ++ [t]).flatMap tokens = (trees ++ t.operands).flatMap tokens ++ [t.root] := by
      intro trees t
      simp [t.tokens_eq]
    rcases List.eq_nil_or_concat' forest with rfl | ⟨trees, t, rfl⟩ <;>
      rcases List.eq_nil_or_concat' forest' with rfl | ⟨trees', t', rfl⟩
    · rfl
    · simp [hlast] at h
    · simp [hlast] at h
    · -- the last token is the root of the last tree; one token less, its
      -- operands are the last trees of a shorter row
      rw [hlast, hlast] at h
      obtain ⟨hrest, hroot⟩ := List.append_inj' h rfl
      have hroot' : t.root = t'.root := List.singleton_inj.1 hroot
      have hshort : ((trees ++ t.operands).flatMap tokens).length < n := by
        rw [← hn, hlast]
        simp
      have htrees := ih _ hshort hrest rfl
      obtain ⟨rfl, hops⟩ := List.append_inj' htrees (length_operands_of_root hroot')
      rw [eq_of_root_of_operands hroot' hops]

end Tree

end ReversePolish

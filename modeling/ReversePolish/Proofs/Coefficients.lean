/-
  The binomial coefficients that are computed exactly.

  * `Number.mul_choose_mono`: the products before the divisions grow up to the middle of a row;
  * `Number.isNatural_runningProduct`: as long as they are at most `2^53`, the running
    product is the binomial coefficient;
  * `Operation.pascal_exact`: the entries that Pascal's triangle has exactly, and the symmetry
    of all of its rows.
-/
import ReversePolish.Proofs.Acceptance
import ReversePolish.Proofs.RunningProduct

namespace ReversePolish

namespace Number

variable {i j left row column : ℕ}

/-! ## Coefficients -/

/-- The products before the divisions grow up to the middle of a row. -/
theorem mul_choose_mono (hij : i ≤ j) (hj : 2 * j ≤ row) :
    i * row.choose i ≤ j * row.choose j := by
  induction j, hij using Nat.le_induction with
  | base => exact le_rfl
  | succ j _ ih =>
    calc i * row.choose i ≤ j * row.choose j := ih (by omega)
      _ ≤ (row - j) * row.choose j := Nat.mul_le_mul_right _ (by omega)
      _ = (j + 1) * row.choose (j + 1) := by
        rw [Nat.mul_comm, ← Nat.choose_succ_right_eq, Nat.mul_comm]

theorem choose_le_mul_choose (hpos : 0 < i) (row : ℕ) : row.choose i ≤ i * row.choose i :=
  Nat.le_mul_of_pos_left _ hpos

/-- The coefficient that the loop computes is that of the column. -/
theorem choose_min (hcolumn : column ≤ row) :
    row.choose (min column (row - column)) = row.choose column := by
  rcases min_choice column (row - column) with hmin | hmin <;> rw [hmin]
  exact Nat.choose_symm hcolumn

theorem binomial_symm (hcolumn : column ≤ row) :
    binomial row (row - column) = binomial row column := by
  rw [binomial, binomial, Nat.sub_sub_self hcolumn, min_comm]

/-! ## The running product -/

/-- The round of the loop after `i` others, without any rounding. -/
structure ExactRound (row i : ℕ) : Prop where
  product_le : row.choose i * (row - i) ≤ 2 ^ 53
  product : IsNatural (runningProduct row i * ofIndex (row - (i + 1) + 1))
    (row.choose i * (row - i))
  dvd : i + 1 ∣ row.choose i * (row - i)
  quotient : IsNatural (runningProduct row (i + 1)) (row.choose (i + 1))

/-- **One more round** is exact, when the product before the division is at most `2^53`. -/
theorem exactRound (hx : IsNatural (runningProduct row i) (row.choose i)) (hrow : row ≤ 2 ^ 53)
    (hi : i + 1 ≤ row) (hle : (i + 1) * row.choose (i + 1) ≤ 2 ^ 53) : ExactRound row i := by
  have hstep : row.choose (i + 1) * (i + 1) = row.choose i * (row - i) :=
    Nat.choose_succ_right_eq row i
  have hproduct_le : row.choose i * (row - i) ≤ 2 ^ 53 := by
    rwa [← hstep, Nat.mul_comm]
  have hfactor : row - (i + 1) + 1 = row - i := by omega
  have hproduct : IsNatural (runningProduct row i * ofIndex (row - (i + 1) + 1))
      (row.choose i * (row - i)) := by
    rw [hfactor]
    exact hx.mul (isNatural_ofIndex (by omega)) (Nat.choose_pos (by omega)) (by omega) hproduct_le
  refine ⟨hproduct_le, hproduct, ⟨row.choose (i + 1), by rw [← hstep, Nat.mul_comm]⟩, ?_⟩
  rw [← hstep] at hproduct
  exact hproduct.div (isNatural_ofIndex (by omega)) (Nat.choose_pos hi) i.succ_pos
    ((choose_le_mul_choose i.succ_pos row).trans hle)

/-- **The running product** is the binomial coefficient, as long as no product is rounded. -/
theorem isNatural_runningProduct (hrow : row ≤ 2 ^ 53) (hi : 2 * i ≤ row)
    (hle : i * row.choose i ≤ 2 ^ 53) : IsNatural (runningProduct row i) (row.choose i) := by
  induction i with
  | zero =>
    rw [Nat.choose_zero_right]
    exact isNatural_one
  | succ i ih =>
    -- the last product bounds the earlier ones
    have hbefore := (mul_choose_mono i.le_succ hi).trans hle
    exact (exactRound (ih (by omega) hbefore) hrow (by omega) hle).quotient

/-- The loop makes all of its rounds, when no product is infinite. -/
theorem countedFrom_eq (hfinite : ∀ n ≤ i + left, (runningProduct row n).isInf = false) :
    countedFrom row (runningProduct row i) (i + 1) left = (runningProduct row (i + left), left) := by
  induction left generalizing i with
  | zero => rfl
  | succ left ih =>
    have hnext := hfinite (i + 1) (by omega)
    have hsum : i + 1 + left = i + (left + 1) := by omega
    have hrest := ih (hsum ▸ hfinite)
    rw [countedFrom_succ, hrest, hnext, hsum]
    rfl

/-- The loop of an entry of the triangle, without any rounding. -/
structure ExactLoop (row column : ℕ) : Prop where
  isNatural : IsNatural (binomial row column) (row.choose column)
  counted_eq : counted row column = (binomial row column, min column (row - column))
  round : ∀ i < min column (row - column), ExactRound row i
  loop_eq : ∀ i ≤ min column (row - column), binomialFrom row 1.0 1 i = runningProduct row i

theorem exactLoop (hrow : row ≤ 2 ^ 53) (hcolumn : column ≤ row)
    (hle : min column (row - column) * row.choose (min column (row - column)) ≤ 2 ^ 53) :
    ExactLoop row column := by
  have hresult : binomial row column = runningProduct row (min column (row - column)) :=
    binomial_eq_runningProduct hrow
  have hmin := choose_min hcolumn
  generalize hk : min column (row - column) = k at hle hresult hmin
  have hhalf : 2 * k ≤ row := by omega
  have hsmall : ∀ i ≤ k, IsNatural (runningProduct row i) (row.choose i) := fun i hi =>
    isNatural_runningProduct hrow (by omega) ((mul_choose_mono hi hhalf).trans hle)
  refine ⟨?_, ?_, fun i hi => ?_, fun i hi => ?_⟩
  · rw [hresult, ← hmin]
    exact hsmall k le_rfl
  · rw [hresult, counted, hk]
    have hcounted : countedFrom row (runningProduct row 0) (0 + 1) k =
        (runningProduct row (0 + k), k) :=
      countedFrom_eq fun i hi => isInf_of_isFinite (hsmall i (by omega)).isFinite
    rwa [Nat.zero_add k] at hcounted
  · rw [hk] at hi
    exact exactRound (hsmall i hi.le) hrow (by omega) ((mul_choose_mono hi hhalf).trans hle)
  · rw [hk] at hi
    exact binomialFrom_one hrow (by omega)

end Number

/-! ## Pascal's triangle -/

namespace Operation

open Number (index? ofIndex binomial ExactLoop)
open Stack (ofValues)

variable {r c : Float} {row column : ℕ}

/-- **The entries of Pascal's triangle** are exact, when no product before a division is
    greater than `2^53`; and every row is symmetric, with the same float at both columns. -/
theorem pascal_exact (below : List Float) (hr : index? r = some row) (hc : index? c = some column)
    (hle : column ≤ row) :
    pascal.apply.run (ofValues (below ++ [r, c])) =
        .ok () (ofValues (below ++ [binomial row column])) ∧
      (min column (row - column) * row.choose (min column (row - column)) ≤ 2 ^ 53 →
        ExactLoop row column) ∧
      ∀ c', index? c' = some (row - column) →
        pascal.apply.run (ofValues (below ++ [r, c'])) =
          .ok () (ofValues (below ++ [binomial row column])) := by
  obtain ⟨-, hrow⟩ := Number.index?_eq_some_iff.1 hr
  refine ⟨run_pascal_of_le below hr hc hle, Number.exactLoop hrow hle, fun c' hc' => ?_⟩
  rw [run_pascal_of_le below hr hc' (Nat.sub_le row column), Number.binomial_symm hle]

/-- The last row that is exact in the middle. -/
theorem pascal_exact_middle :
    (index? (ofIndex 51) = some 51 ∧ index? (ofIndex 26) = some 26 ∧ 26 ≤ 51) ∧
      ExactLoop 51 26 := by
  have hr : index? (ofIndex 51) = some 51 := Number.index?_ofIndex (by decide)
  have hc : index? (ofIndex 26) = some 26 := Number.index?_ofIndex (by decide)
  have hle : min 26 (51 - 26) * (51 : ℕ).choose (min 26 (51 - 26)) ≤ 2 ^ 53 := by
    rw [Nat.choose_eq_descFactorial_div_factorial]
    decide +kernel
  exact ⟨⟨hr, hc, by decide⟩, (pascal_exact [] hr hc (by decide)).2.1 hle⟩

end Operation

end ReversePolish

/-
  Where the entries of Pascal's triangle become infinite.

  * `Number.Overflows`: the product of a round is out of range, before it is divided;
  * `Number.exists_overflow`: that is the only way to an infinite running product;
  * `Number.le_mul_choose_of_isInf` and `Number.isInf_of_le_mul_choose`: up to its last
    digits, the greatest such product is the coefficient times its column;
  * `Operation.pascal_overflow`: entries from `2^1014` on may be infinite, although they are
    in range; others are the coefficient up to roundings.
-/
import ReversePolish.Proofs.Coefficients

namespace ReversePolish

namespace Number

variable {x : Float} {i j row column : ℕ} {v w : ℚ}

/-! ## The product that overflows -/

/-- The product of the round after `i` others is out of range, before it is divided. -/
structure Overflows (row i : ℕ) : Prop where
  counts : Counts row i (runningProduct row i)
  limit_le : limit ≤ toRat (runningProduct row i) * (row - i : ℕ)

theorem Overflows.runningProduct_succ (h : Overflows row i) (hrow : row ≤ 2 ^ 53)
    (hi : 2 * (i + 1) ≤ row) : runningProduct row (i + 1) = infinity := by
  rcases h.counts.succ hrow hi with ⟨hlt, -⟩ | ⟨-, hinfinite⟩
  · exact absurd h.limit_le hlt.not_ge
  · exact hinfinite

/-- The product of a round with a finite result is in range. -/
theorem Counts.before (h : Counts row (i + 1) (runningProduct row (i + 1)))
    (hrow : row ≤ 2 ^ 53) (hi : 2 * (i + 1) ≤ row) :
    Counts row i (runningProduct row i) ∧
      toRat (runningProduct row i) * (row - i : ℕ) < limit := by
  rcases runningProduct_cases hrow (by omega : 2 * i ≤ row) with hcounts | hinfinite
  · refine ⟨hcounts, not_le.1 fun hle => ?_⟩
    exact h.ne_infinity (Overflows.runningProduct_succ ⟨hcounts, hle⟩ hrow hi)
  · exact absurd (runningProduct_add hinfinite hrow hi) h.ne_infinity

/-- **An infinite product** comes from a product out of range, within the first `520` rounds. -/
theorem exists_overflow (hinfinite : runningProduct row i = infinity) (hrow : row ≤ 2 ^ 53)
    (hi : 2 * i ≤ row) : ∃ j < i, j < 520 ∧ Overflows row j := by
  induction i with
  | zero => exact absurd hinfinite (counts_zero row).ne_infinity
  | succ i ih =>
    -- the last round overflows, unless an earlier one does
    rcases runningProduct_cases hrow (by omega : 2 * i ≤ row) with hcounts | hbefore
    · refine ⟨i, i.lt_succ_self, hcounts.lt hrow (by omega), hcounts, ?_⟩
      rcases hcounts.succ hrow hi with ⟨-, hnext⟩ | ⟨hle, -⟩
      · exact absurd hinfinite hnext.ne_infinity
      · exact hle
    · obtain ⟨j, hj, h⟩ := ih hbefore (by omega)
      exact ⟨j, hj.trans i.lt_succ_self, h⟩

/-! ## The coefficient -/

/-- The product of a round, up to the roundings before. -/
theorem cast_mul_choose_succ (row i : ℕ) :
    (((i + 1) * row.choose (i + 1) : ℕ) : ℚ) = row.choose i * (row - i : ℕ) := by
  rw [Nat.mul_comm, Nat.choose_succ_right_eq, Nat.cast_mul]

/-- The bounds of the range as multiples of one number. -/
theorem exists_unit : ∃ unit : ℚ, 0 < unit ∧ limit = (2 ^ 54 - 1) * unit ∧
    2 ^ 1024 = 2 ^ 54 * unit ∧ 2 ^ 983 = 2 ^ 13 * unit := by
  have hhigh : (2 : ℚ) ^ 1024 = 2 ^ 54 * 2 ^ 970 := by rw [← pow_add]
  have hlow : (2 : ℚ) ^ 983 = 2 ^ 13 * 2 ^ 970 := by rw [← pow_add]
  refine ⟨2 ^ 970, pow_pos two_pos _, ?_, hhigh, hlow⟩
  rw [limit, hhigh, sub_mul, one_mul]

theorem two_pow_le_add (h : (1 - 2 ^ (-42 : ℤ)) * limit ≤ v) : 2 ^ 1024 ≤ v + 2 ^ 983 := by
  obtain ⟨unit, hpos, hlimit, hhigh, hlow⟩ := exists_unit
  rw [hlimit] at h
  rw [hhigh, hlow]
  norm_num at h ⊢
  linarith only [h, hpos]

theorem lt_two_pow_add (h : (1 - 2 ^ (-42 : ℤ)) * v < limit) : v < 2 ^ 1024 + 2 ^ 983 := by
  obtain ⟨unit, hpos, hlimit, hhigh, hlow⟩ := exists_unit
  rw [hlimit] at h
  rw [hhigh, hlow]
  norm_num at h ⊢
  linarith only [h, hpos]

/-- The product of a round is close to that of the coefficients. -/
theorem Overflows.le_mul_choose (h : Overflows row i) (hi : i < 520) :
    2 ^ 1024 ≤ (i + 1) * row.choose (i + 1) + 2 ^ 983 := by
  have hclose := h.counts.approximates.mul_ge (by omega) (zero_le_one.trans h.counts.one_le)
  have hless : (1 - 2 ^ (-42 : ℤ)) * limit ≤ ((i + 1) * row.choose (i + 1) : ℕ) := by
    rw [cast_mul_choose_succ]
    calc (1 - 2 ^ (-42 : ℤ)) * limit
        ≤ (1 - 2 ^ (-42 : ℤ)) * (toRat (runningProduct row i) * (row - i : ℕ)) :=
          mul_le_mul_of_nonneg_left h.limit_le (by norm_num)
      _ = (1 - 2 ^ (-42 : ℤ)) * toRat (runningProduct row i) * (row - i : ℕ) := by
          rw [mul_assoc]
      _ ≤ row.choose i * (row - i : ℕ) := mul_le_mul_of_nonneg_right hclose (Nat.cast_nonneg _)
  exact_mod_cast two_pow_le_add hless

theorem Counts.mul_choose_lt (h : Counts row i (runningProduct row i)) (hrow : row ≤ 2 ^ 53)
    (hi : 2 * i ≤ row) : i * row.choose i < 2 ^ 1024 + 2 ^ 983 := by
  have hfew := h.lt hrow hi
  cases i with
  | zero =>
    exact (Nat.zero_mul _).trans_lt (add_pos (pow_pos two_pos _) (pow_pos two_pos _))
  | succ i =>
    obtain ⟨hcounts, hlt⟩ := h.before hrow hi
    have hclose := hcounts.approximates.mul_le (by omega) (Nat.cast_nonneg _)
    have hless : (1 - 2 ^ (-42 : ℤ)) * ((i + 1) * row.choose (i + 1) : ℕ) < limit := by
      rw [cast_mul_choose_succ, ← mul_assoc]
      exact (mul_le_mul_of_nonneg_right hclose (Nat.cast_nonneg _)).trans_lt hlt
    exact_mod_cast lt_two_pow_add hless

/-- The coefficients grow up to the middle of a row. -/
theorem choose_mono (hij : i ≤ j) (hj : 2 * j ≤ row) : row.choose i ≤ row.choose j := by
  induction j, hij using Nat.le_induction with
  | base => exact le_rfl
  | succ j _ ih => exact (ih (by omega)).trans (Nat.choose_le_succ_of_lt_half_left (by omega))

/-! ## Entries -/

theorem binomial_isInf_iff (hrow : row ≤ 2 ^ 53) :
    (binomial row column).isInf = true ↔
      runningProduct row (min column (row - column)) = infinity := by
  rw [binomial_eq_runningProduct hrow]
  constructor
  · exact fun hinf => runningProduct_of_isInf hinf hrow (by omega)
  · intro hinfinite
    rw [hinfinite]
    exact isInf_infinity

theorem le_mul_choose_of_isInf (hrow : row ≤ 2 ^ 53) (hcolumn : column ≤ row)
    (hinf : (binomial row column).isInf = true) :
    2 ^ 1024 ≤ min column (row - column) * row.choose column + 2 ^ 983 := by
  obtain ⟨i, hi, hfew, hoverflow⟩ :=
    exists_overflow ((binomial_isInf_iff hrow).1 hinf) hrow (by omega)
  rw [← choose_min hcolumn]
  exact (hoverflow.le_mul_choose hfew).trans
    (Nat.add_le_add_right (mul_choose_mono hi (by omega)) _)

theorem isInf_of_le_mul_choose (hrow : row ≤ 2 ^ 53) (hcolumn : column ≤ row)
    (hle : 2 ^ 1024 + 2 ^ 983 ≤ min column (row - column) * row.choose column) :
    (binomial row column).isInf = true := by
  rw [binomial_isInf_iff hrow]
  refine (runningProduct_cases hrow (by omega)).resolve_left fun hcounts => ?_
  rw [← choose_min hcolumn] at hle
  exact (hcounts.mul_choose_lt hrow (by omega)).not_ge hle

/-- The coefficient of an infinite entry is large, though perhaps in range. -/
theorem two_pow_le_choose_of_isInf (hrow : row ≤ 2 ^ 53) (hcolumn : column ≤ row)
    (hinf : (binomial row column).isInf = true) : 2 ^ 1014 ≤ row.choose column := by
  obtain ⟨i, hi, hfew, hoverflow⟩ :=
    exists_overflow ((binomial_isInf_iff hrow).1 hinf) hrow (by omega)
  have hproduct := hoverflow.le_mul_choose hfew
  -- the column of the overflow is at most `520`, though that of the entry need not be
  have hmono : row.choose (i + 1) ≤ row.choose column := by
    rw [← choose_min hcolumn]
    exact choose_mono hi (by omega)
  have hbound : (i + 1) * row.choose (i + 1) ≤ 520 * row.choose column :=
    Nat.mul_le_mul hfew hmono
  have hhigh : 2 ^ 1024 = 2 ^ 41 * 2 ^ 983 := by rw [← pow_add]
  have hlow : 2 ^ 1014 = 2 ^ 31 * 2 ^ 983 := by rw [← pow_add]
  have hpos : 0 < 2 ^ 983 := pow_pos two_pos _
  rw [hhigh] at hproduct
  rw [hlow]
  generalize 2 ^ 983 = unit at hproduct hpos ⊢
  omega

/-- The range of the entries of the triangle. -/
structure EntryRange (row column : ℕ) : Prop where
  isInf_iff : (binomial row column).isInf = true ↔
    ∃ i < min column (row - column), Overflows row i
  le_mul_choose : (binomial row column).isInf = true →
    2 ^ 1024 ≤ min column (row - column) * row.choose column + 2 ^ 983
  isInf : 2 ^ 1024 + 2 ^ 983 ≤ min column (row - column) * row.choose column →
    (binomial row column).isInf = true
  two_pow_le_choose : (binomial row column).isInf = true → 2 ^ 1014 ≤ row.choose column
  counts : (binomial row column).isInf = false →
    Counts row (min column (row - column)) (binomial row column)

theorem entryRange (hrow : row ≤ 2 ^ 53) (hcolumn : column ≤ row) : EntryRange row column where
  isInf_iff := by
    rw [binomial_isInf_iff hrow]
    constructor
    · intro hinfinite
      obtain ⟨i, hi, -, hoverflow⟩ := exists_overflow hinfinite hrow (by omega)
      exact ⟨i, hi, hoverflow⟩
    · rintro ⟨i, hi, hoverflow⟩
      obtain ⟨n, hn⟩ := Nat.exists_eq_add_of_le (Nat.succ_le_of_lt hi)
      rw [hn]
      exact runningProduct_add (hoverflow.runningProduct_succ hrow (by omega)) hrow (by omega)
  le_mul_choose := le_mul_choose_of_isInf hrow hcolumn
  isInf := isInf_of_le_mul_choose hrow hcolumn
  two_pow_le_choose := two_pow_le_choose_of_isInf hrow hcolumn
  counts hfinite := by
    have hcases := runningProduct_cases hrow (by omega : 2 * min column (row - column) ≤ row)
    rw [← binomial_eq_runningProduct hrow] at hcases
    refine hcases.resolve_right fun hinfinite => ?_
    rw [hinfinite, isInf_infinity] at hfinite
    cases hfinite

end Number

/-! ## Pascal's triangle -/

namespace Operation

open Number (index? ofIndex binomial infinity EntryRange)
open Stack (ofValues)

variable {r c : Float} {row column : ℕ}

/-- **The range of Pascal's triangle**: an entry is infinite just when one of its products is
    out of range before it is divided.  Up to their last digits, these are the entries with
    `2^1024` at most the coefficient times its column; all of them are at least `2^1014`, and
    the other entries are the coefficient up to roundings. -/
theorem pascal_overflow (below : List Float) (hr : index? r = some row)
    (hc : index? c = some column) (hle : column ≤ row) :
    pascal.apply.run (ofValues (below ++ [r, c])) =
        .ok () (ofValues (below ++ [binomial row column])) ∧
      EntryRange row column := by
  obtain ⟨-, hrow⟩ := Number.index?_eq_some_iff.1 hr
  exact ⟨run_pascal_of_le below hr hc hle, Number.entryRange hrow hle⟩

theorem pascal_overflow_middle :
    (index? (ofIndex 1021) = some 1021 ∧ index? (ofIndex 510) = some 510 ∧ 510 ≤ 1021) ∧
      EntryRange 1021 510 := by
  have hr : index? (ofIndex 1021) = some 1021 := Number.index?_ofIndex (by decide)
  have hc : index? (ofIndex 510) = some 510 := Number.index?_ofIndex (by decide)
  exact ⟨⟨hr, hc, by decide⟩, (pascal_overflow [] hr hc (by decide)).2⟩

/-- An entry that is infinite, although the coefficient is much less than what is out of range. -/
theorem pascal_infinite_in_range :
    pascal.apply.run (ofValues [ofIndex 1021, ofIndex 510]) = .ok () (ofValues [infinity]) ∧
      Nat.choose 1021 510 < 2 ^ 1016 := by
  have hchoose : 2 ^ 1024 + 2 ^ 983 ≤ min 510 (1021 - 510) * Nat.choose 1021 510 := by
    rw [Nat.choose_eq_descFactorial_div_factorial]
    decide +kernel
  have hinf := Number.isInf_of_le_mul_choose (by decide) (by decide) hchoose
  have hentry : binomial 1021 510 = infinity :=
    (Number.binomial_eq_runningProduct (by decide)).trans
      ((Number.binomial_isInf_iff (by decide)).1 hinf)
  have hrun := run_pascal_of_le [] (Number.index?_ofIndex (by decide : 1021 ≤ 2 ^ 53))
    (Number.index?_ofIndex (by decide : 510 ≤ 2 ^ 53)) (by decide)
  rw [hentry] at hrun
  refine ⟨hrun, ?_⟩
  rw [Nat.choose_eq_descFactorial_div_factorial]
  decide +kernel

end Operation

end ReversePolish

/-
  The running product of Pascal's triangle.

  * `Number.runningProduct`: the product of the first factors, infinite or not;
  * `Number.Multiplied`: what a float comes to by one factor, rounded twice;
  * `Number.runningProduct_cases`: a binomial coefficient up to its roundings, or infinity;
  * `Number.binomialFrom_runningProduct`: an infinite product need not be multiplied further;
  * `Number.runningProduct_of_le`: after `520` factors the product is infinite;
  * `Number.countedFrom_snd_le` and `Number.countedFrom_snd_le_of_isInf`: the loop makes
    no more rounds than it is asked for, and none after an infinite product;
  * `Number.binomial_stopsEarly`: stopping at infinity changes the number of rounds only.
-/
import Mathlib.Data.Nat.Choose.Central
import ReversePolish.Number.Binomial
import ReversePolish.Proofs.Indices

namespace ReversePolish.Number

variable {x : Float} {a b i j n left row column : ℕ}

/-- The product of the first `i` factors of a row, without a stop at infinity. -/
def runningProduct (row : ℕ) : ℕ → Float
  | 0 => 1.0
  | i + 1 => runningProduct row i * ofIndex (row - (i + 1) + 1) / ofIndex (i + 1)

/-! ## One factor -/

/-- The float times `a / b` is rounded after the product, and again after the quotient. -/
structure RoundedTwice (x : Float) (a b : ℕ) : Prop where
  product : Rounds .positive (toRat x * a) (x * ofIndex a)
  quotient : (x * ofIndex a).isFinite = true →
    Rounds .positive (toRat (x * ofIndex a) / b) (x * ofIndex a / ofIndex b)

/-- What a float comes to, times `a / b`: that number up to two roundings, unless the
    product with `a` is out of range. -/
inductive Multiplied (x : Float) (a b : ℕ) : Float → Prop
  | rounded {z : Float} (hproduct : toRat x * a < limit) (hz : z.isFinite = true)
      (hone : 1 ≤ toRat z) (happrox : Approximates 2 (toRat x * a / b) (toRat z)) :
      Multiplied x a b z
  | overflowed (hproduct : limit ≤ toRat x * a) : Multiplied x a b infinity

theorem toRat_ofIndex_pos (hpos : 0 < n) (hn : n ≤ 2 ^ 53) : 0 < toRat (ofIndex n) := by
  rw [(isNatural_ofIndex hn).toRat_eq]
  exact_mod_cast hpos

/-- A positive float times an index is not zero. -/
theorem le_toRat_mul (hone : 1 ≤ toRat x) (ha : a ≤ 2 ^ 53)
    (h : Nearest (toRat x * a) (x * ofIndex a)) : (a : ℚ) ≤ toRat (x * ofIndex a) := by
  have hindex := isNatural_ofIndex ha
  have hle : toRat (ofIndex a) ≤ toRat x * a := by
    rw [hindex.toRat_eq]
    exact le_mul_of_one_le_left (Nat.cast_nonneg a) hone
  rw [← hindex.toRat_eq]
  exact h.le_toRat hindex.isFinite hle

theorem roundedTwice (hx : x.isFinite = true) (hone : 1 ≤ toRat x) (hb : 0 < b) (hle : b ≤ a)
    (ha : a ≤ 2 ^ 53) : RoundedTwice x a b := by
  have hxpos : 0 < toRat x := zero_lt_one.trans_le hone
  have hapos : 0 < a := hb.trans_le hle
  have hnumerator := isNatural_ofIndex ha
  have hdivisor := isNatural_ofIndex (hle.trans ha)
  have hproduct : Rounds .positive (toRat x * a) (x * ofIndex a) := by
    rw [← hnumerator.toRat_eq]
    exact rounds_mul_of_pos hx hxpos hnumerator.isFinite (toRat_ofIndex_pos hapos ha)
  refine ⟨hproduct, fun hfinite => ?_⟩
  have hnearest := hproduct.nearest (hproduct.isFinite_iff.1 hfinite)
  have hpos : 0 < toRat (x * ofIndex a) :=
    (Nat.cast_pos.2 hapos).trans_le (le_toRat_mul hone ha hnearest)
  rw [← hdivisor.toRat_eq]
  exact rounds_div_of_pos hfinite hpos hdivisor.isFinite (toRat_ofIndex_pos hb (hle.trans ha))

/-- **One factor**, from `1` on. -/
theorem multiplied (hx : x.isFinite = true) (hone : 1 ≤ toRat x) (hb : 0 < b) (hle : b ≤ a)
    (ha : a ≤ 2 ^ 53) : Multiplied x a b (x * ofIndex a / ofIndex b) := by
  have hrounded := roundedTwice hx hone hb hle ha
  have hbone : (1 : ℚ) ≤ b := by exact_mod_cast hb
  have haone : (1 : ℚ) ≤ a := by exact_mod_cast hb.trans_le hle
  -- a finite product is at least `a`, so that the quotient is at least `1`, and in range
  rcases lt_or_ge (toRat x * a) limit with hlt | hge
  · have hproduct : Nearest (toRat x * a) (x * ofIndex a) := hrounded.product.nearest hlt
    have hlow := le_toRat_mul hone ha hproduct
    have hquotient : 1 ≤ toRat (x * ofIndex a) / b :=
      (one_le_div (zero_lt_one.trans_le hbone)).2 ((Nat.cast_le.2 hle).trans hlow)
    have hlimit : toRat (x * ofIndex a) / b < limit :=
      (div_le_self ((Nat.cast_nonneg a).trans hlow) hbone).trans_lt
        (toRat_lt_limit hproduct.isFinite)
    have hnearest : Nearest (toRat (x * ofIndex a) / b) (x * ofIndex a / ofIndex b) :=
      (hrounded.quotient hproduct.isFinite).nearest hlimit
    refine .rounded hlt hnearest.isFinite ?_ ?_
    · rw [← toRat_one]
      exact hnearest.le_toRat rfl (toRat_one.trans_le hquotient)
    · have hfirst := hproduct.approximates_of_one_le (one_le_mul_of_one_le_of_one_le hone haone) hlt
      have hsecond := hnearest.approximates_of_one_le hquotient hlimit
      rw [div_eq_mul_inv] at hsecond ⊢
      exact (hfirst.mul_right (inv_nonneg.2 (Nat.cast_nonneg b))).trans hsecond
  · have hinfinite : x * ofIndex a = infinity := hrounded.product.infinite hge
    rw [hinfinite, infinity_div (isNatural_ofIndex (hle.trans ha)).isFinite
      (toRat_ofIndex_pos hb (hle.trans ha))]
    exact .overflowed hge

/-! ## The product -/

/-- The float is the binomial coefficient, up to two roundings for each factor. -/
structure Counts (row i : ℕ) (x : Float) : Prop where
  isFinite : x.isFinite = true
  one_le : 1 ≤ toRat x
  approximates : Approximates (2 * i) (row.choose i) (toRat x)

theorem Counts.ne_infinity (h : Counts row i x) : x ≠ infinity := by
  rintro rfl
  have hfinite := h.isFinite
  rw [infinity, isFinite_infinity] at hfinite
  cases hfinite

theorem counts_zero (row : ℕ) : Counts row 0 1.0 := by
  refine ⟨rfl, toRat_one.ge, ?_⟩
  rw [toRat_one, Nat.choose_zero_right, Nat.cast_one]
  exact approximates_self 1

/-- A binomial coefficient from the one before. -/
theorem cast_choose_succ (row i : ℕ) :
    (row.choose (i + 1) : ℚ) = row.choose i * ((row - i : ℕ) / (i + 1 : ℕ)) := by
  have hne : ((i + 1 : ℕ) : ℚ) ≠ 0 := Nat.cast_ne_zero.2 (Nat.succ_ne_zero i)
  rw [← mul_div_assoc, eq_div_iff hne]
  exact_mod_cast Nat.choose_succ_right_eq row i

/-- **One more factor** gives the next coefficient, or infinity. -/
theorem Counts.succ (h : Counts row i x) (hrow : row ≤ 2 ^ 53) (hi : 2 * (i + 1) ≤ row) :
    toRat x * (row - i : ℕ) < limit ∧
      Counts row (i + 1) (x * ofIndex (row - (i + 1) + 1) / ofIndex (i + 1)) ∨
    limit ≤ toRat x * (row - i : ℕ) ∧
      x * ofIndex (row - (i + 1) + 1) / ofIndex (i + 1) = infinity := by
  have hfactor : row - (i + 1) + 1 = row - i := by omega
  rw [hfactor]
  have hmultiplied := multiplied h.isFinite h.one_le i.succ_pos
    (by omega : i + 1 ≤ row - i) (by omega)
  generalize x * ofIndex (row - i) / ofIndex (i + 1) = z at hmultiplied
  cases hmultiplied with
  | rounded hproduct hz hone happrox =>
    refine Or.inl ⟨hproduct, hz, hone, ?_⟩
    rw [cast_choose_succ]
    rw [mul_div_assoc] at happrox
    exact (h.approximates.mul_right (div_nonneg (Nat.cast_nonneg _) (Nat.cast_nonneg _))).trans
      happrox
  | overflowed hproduct => exact Or.inr ⟨hproduct, rfl⟩

/-- Infinity stays infinite. -/
theorem infinity_succ (hrow : row ≤ 2 ^ 53) (hi : i + 1 ≤ row) :
    infinity * ofIndex (row - (i + 1) + 1) / ofIndex (i + 1) = infinity := by
  rw [infinity_mul (isNatural_ofIndex (by omega)).isFinite
      (toRat_ofIndex_pos (Nat.succ_pos _) (by omega)),
    infinity_div (isNatural_ofIndex (by omega)).isFinite
      (toRat_ofIndex_pos i.succ_pos (by omega))]

/-- **The running product** is the binomial coefficient up to roundings, or infinity. -/
theorem runningProduct_cases (hrow : row ≤ 2 ^ 53) (hi : 2 * i ≤ row) :
    Counts row i (runningProduct row i) ∨ runningProduct row i = infinity := by
  induction i with
  | zero => exact Or.inl (counts_zero row)
  | succ i ih =>
    rw [runningProduct]
    rcases ih (by omega) with hcounts | hinfinite
    · exact (hcounts.succ hrow hi).imp And.right And.right
    · rw [hinfinite]
      exact Or.inr (infinity_succ hrow (by omega))

theorem runningProduct_add (hinfinite : runningProduct row i = infinity) (hrow : row ≤ 2 ^ 53)
    (hn : 2 * (i + n) ≤ row) : runningProduct row (i + n) = infinity := by
  induction n with
  | zero => exact hinfinite
  | succ n ih =>
    rw [← Nat.add_assoc, runningProduct, ih (by omega)]
    exact infinity_succ hrow (by omega)

theorem isInf_infinity : infinity.isInf = true :=
  rfl

/-- The product is never NaN ... -/
theorem isNaN_runningProduct (hrow : row ≤ 2 ^ 53) (hi : 2 * i ≤ row) :
    (runningProduct row i).isNaN = false := by
  rcases runningProduct_cases hrow hi with hcounts | hinfinite
  · exact isNaN_of_isFinite hcounts.isFinite
  · rw [hinfinite]
    rfl

/-- ... nor the negative infinity. -/
theorem runningProduct_of_isInf (hinf : (runningProduct row i).isInf = true)
    (hrow : row ≤ 2 ^ 53) (hi : 2 * i ≤ row) : runningProduct row i = infinity := by
  refine (runningProduct_cases hrow hi).resolve_left fun hcounts => ?_
  rw [isInf_of_isFinite hcounts.isFinite] at hinf
  cases hinf

/-! ## Growth -/

/-- The binomial coefficients of a column, in the rows where it is not past the middle. -/
theorem two_pow_lt_choose (hrow : 2 * 520 ≤ row) : 2 ^ 1030 < row.choose 520 := by
  have hcentral : 2 ^ 1040 < 520 * (2 * 520).choose 520 := by
    have hgrowth := Nat.four_pow_lt_mul_centralBinom 520 (by decide)
    have hpow : 4 ^ 520 = 2 ^ 1040 := by decide +kernel
    rwa [hpow, Nat.centralBinom_eq_two_mul_choose] at hgrowth
  have hmono := Nat.choose_le_choose 520 hrow
  have hsplit : 2 ^ 1040 = 1024 * 2 ^ 1030 := by decide +kernel
  rw [hsplit] at hcentral
  generalize (2 * 520).choose 520 = least at hcentral hmono
  generalize 2 ^ 1030 = bound at hcentral ⊢
  omega

/-- **After `520` factors** the product is infinite. -/
theorem runningProduct_of_le (hrow : row ≤ 2 ^ 53) (hle : 520 ≤ i) (hi : 2 * i ≤ row) :
    runningProduct row i = infinity := by
  have hfirst : runningProduct row 520 = infinity := by
    refine (runningProduct_cases hrow (by omega)).resolve_left fun hcounts => ?_
    -- half of the coefficient is a lower bound, whatever the `1040` roundings are
    have hgrowth : (2 : ℚ) ^ (1030 : ℤ) < row.choose 520 := by
      exact_mod_cast two_pow_lt_choose (by omega)
    have hclose := hcounts.approximates.mul_le (by decide) (Nat.cast_nonneg _)
    have hhalf : (2 : ℚ) ^ (-1 : ℤ) ≤ 1 - 2 ^ (-42 : ℤ) := by norm_num
    have hless : (2 : ℚ) ^ (-1 : ℤ) * 2 ^ (1030 : ℤ) < 2 ^ (1024 : ℤ) :=
      calc (2 : ℚ) ^ (-1 : ℤ) * 2 ^ (1030 : ℤ) ≤ (1 - 2 ^ (-42 : ℤ)) * row.choose 520 :=
            mul_le_mul hhalf hgrowth.le (two_zpow_pos _).le ((two_zpow_pos _).le.trans hhalf)
        _ ≤ toRat (runningProduct row 520) := hclose
        _ < limit := toRat_lt_limit hcounts.isFinite
        _ ≤ 2 ^ (1024 : ℤ) := limit_le
    rw [← zpow_add₀ (by decide)] at hless
    exact absurd ((zpow_lt_zpow_iff_right₀ (by decide)).1 hless) (by decide)
  obtain ⟨n, rfl⟩ := Nat.exists_eq_add_of_le hle
  exact runningProduct_add hfirst hrow hi

/-- The product is finite in fewer rounds only. -/
theorem Counts.lt (h : Counts row i (runningProduct row i)) (hrow : row ≤ 2 ^ 53)
    (hi : 2 * i ≤ row) : i < 520 := by
  by_contra hlate
  exact h.ne_infinity (runningProduct_of_le hrow (not_lt.1 hlate) hi)

/-! ## The loop -/

/-- One round of the loop. -/
theorem countedFrom_succ (row i left : ℕ) :
    countedFrom row (runningProduct row i) (i + 1) (left + 1) =
      if (runningProduct row (i + 1)).isInf then (runningProduct row (i + 1), 1) else
        ((countedFrom row (runningProduct row (i + 1)) (i + 1 + 1) left).1,
          (countedFrom row (runningProduct row (i + 1)) (i + 1 + 1) left).2 + 1) :=
  rfl

theorem binomialFrom_succ (row i left : ℕ) :
    binomialFrom row (runningProduct row i) (i + 1) (left + 1) =
      if (runningProduct row (i + 1)).isInf then runningProduct row (i + 1) else
        binomialFrom row (runningProduct row (i + 1)) (i + 1 + 1) left := by
  rw [binomialFrom, countedFrom_succ, apply_ite Prod.fst]
  rfl

/-- **An infinite product** need not be multiplied further. -/
theorem binomialFrom_runningProduct (hrow : row ≤ 2 ^ 53) (hi : 2 * (i + left) ≤ row) :
    binomialFrom row (runningProduct row i) (i + 1) left = runningProduct row (i + left) := by
  induction left generalizing i with
  | zero => rfl
  | succ left ih =>
    have hsum : i + (left + 1) = i + 1 + left := by omega
    rw [binomialFrom_succ]
    rw [hsum] at hi ⊢
    by_cases hinf : (runningProduct row (i + 1)).isInf = true
    · have hinfinite := runningProduct_of_isInf hinf hrow (by omega)
      rw [if_pos hinf, hinfinite, runningProduct_add hinfinite hrow hi]
    · rw [if_neg hinf, ih hi]

/-- The loop after its first `i` rounds. -/
theorem binomialFrom_one (hrow : row ≤ 2 ^ 53) (hi : 2 * i ≤ row) :
    binomialFrom row 1.0 1 i = runningProduct row i := by
  have hloop : binomialFrom row (runningProduct row 0) (0 + 1) i = runningProduct row (0 + i) :=
    binomialFrom_runningProduct hrow (by omega)
  rwa [Nat.zero_add i] at hloop

theorem binomial_eq_runningProduct (hrow : row ≤ 2 ^ 53) :
    binomial row column = runningProduct row (min column (row - column)) :=
  binomialFrom_one hrow (by omega)

/-- The loop of an entry of the triangle, with the number of its rounds. -/
def counted (row column : ℕ) : Float × ℕ :=
  countedFrom row 1.0 1 (min column (row - column))

theorem countedFrom_snd_le (row : ℕ) (product : Float) (i left : ℕ) :
    (countedFrom row product i left).2 ≤ left := by
  induction left generalizing product i with
  | zero => exact le_rfl
  | succ left ih =>
    rw [countedFrom]
    dsimp only
    split_ifs
    · exact Nat.succ_le_succ (Nat.zero_le _)
    · exact Nat.succ_le_succ (ih _ _)

/-- There are no rounds after an infinite product. -/
theorem countedFrom_snd_le_of_isInf (hinf : (runningProduct row n).isInf = true) (hi : i < n)
    (left : ℕ) : (countedFrom row (runningProduct row i) (i + 1) left).2 ≤ n - i := by
  -- on the rounds left; `n` stays, and each round that does not stop is one nearer to it
  induction left generalizing i with
  | zero => exact Nat.zero_le _
  | succ left ih =>
    rw [countedFrom_succ]
    by_cases hnow : (runningProduct row (i + 1)).isInf = true
    · rw [if_pos hnow]
      exact Nat.sub_pos_of_lt hi
    · have hlater : i + 1 < n := by
        refine lt_of_le_of_ne hi fun heq => ?_
        rw [heq] at hnow
        exact hnow hinf
      have hrest := ih hlater
      rw [if_neg hnow]
      dsimp only
      omega

theorem counted_snd_le (hrow : row ≤ 2 ^ 53) : (counted row column).2 ≤ 520 := by
  rcases le_total (min column (row - column)) 520 with hle | hge
  · exact (countedFrom_snd_le _ _ _ _).trans hle
  · have hinf : (runningProduct row 520).isInf = true := by
      rw [runningProduct_of_le hrow le_rfl (by omega)]
      exact isInf_infinity
    exact countedFrom_snd_le_of_isInf hinf (by decide : 0 < 520) _

/-! ## Stopping early -/

/-- The `i`-th factor is computed exactly: no difference is negative, the indices are
    converted exactly, and the divisor is not zero. -/
structure FactorExact (row i : ℕ) : Prop where
  sub_eq : ((row - i + 1 : ℕ) : ℤ) = row - i + 1
  numerator : IsNatural (ofIndex (row - i + 1)) (row - i + 1)
  divisor : IsNatural (ofIndex i) i
  divisor_ne : toRat (ofIndex i) ≠ 0

theorem factorExact (hrow : row ≤ 2 ^ 53) (hpos : 0 < i) (hi : i ≤ row) : FactorExact row i where
  sub_eq := by omega
  numerator := isNatural_ofIndex (by omega)
  divisor := isNatural_ofIndex (by omega)
  divisor_ne := (toRat_ofIndex_pos hpos (by omega)).ne'

/-- The loop of an entry of the triangle against the running product without a stop. -/
structure StopsEarly (row column : ℕ) : Prop where
  sub_eq : ((row - column : ℕ) : ℤ) = row - column
  factor : ∀ i, 0 < i → i ≤ min column (row - column) → FactorExact row i
  rounded : ∀ i < min column (row - column), (runningProduct row i).isFinite = true →
    RoundedTwice (runningProduct row i) (row - (i + 1) + 1) (i + 1)
  eq_runningProduct : binomial row column = runningProduct row (min column (row - column))
  not_nan : ∀ i ≤ min column (row - column), (runningProduct row i).isNaN = false
  infinite : 520 ≤ min column (row - column) →
    ∃ i, 0 < i ∧ i ≤ 520 ∧ (runningProduct row i).isInf = true
  counted_fst : (counted row column).1 = binomial row column
  counted_snd_le : (counted row column).2 ≤ 520

/-- **Stopping early** is harmless: the loop gives the same float as all of its factors,
    which is never NaN, and makes at most `520` rounds, since the product is infinite by then. -/
theorem binomial_stopsEarly (hrow : row ≤ 2 ^ 53) (hcolumn : column ≤ row) :
    StopsEarly row column where
  sub_eq := by omega
  factor i hpos hi := factorExact hrow hpos (by omega)
  rounded i hi hfinite := by
    rcases runningProduct_cases hrow (by omega : 2 * i ≤ row) with hcounts | hinfinite
    · exact roundedTwice hfinite hcounts.one_le i.succ_pos (by omega) (by omega)
    · rw [hinfinite] at hfinite
      cases hfinite
  eq_runningProduct := binomial_eq_runningProduct hrow
  not_nan i hi := isNaN_runningProduct hrow (by omega)
  infinite hle := by
    refine ⟨520, by decide, le_rfl, ?_⟩
    rw [runningProduct_of_le hrow le_rfl (by omega)]
    exact isInf_infinity
  counted_fst := rfl
  counted_snd_le := counted_snd_le hrow

theorem binomial_stopsEarly_central :
    (2 ^ 53 ≤ 2 ^ 53 ∧ 2 ^ 52 ≤ 2 ^ 53) ∧ StopsEarly (2 ^ 53) (2 ^ 52) :=
  ⟨⟨le_rfl, by decide⟩, binomial_stopsEarly le_rfl (by decide)⟩

end ReversePolish.Number

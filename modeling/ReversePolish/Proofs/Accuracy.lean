/-
  How far rounded numbers are from the exact ones.

  * `Number.Nearest.le_toRat`: rounding does not go below a float that is not above;
  * `Number.Nearest.abs_sub_le`: the relative error of one rounding;
  * `Number.Approximates` are numbers that are equal up to so many roundings, and
    `Number.le_pow_of_le` tells how close that is.
-/
import Mathlib.Algebra.Order.Ring.Pow
import Mathlib.Data.Int.Log
import Mathlib.Data.Rat.Floor
import Mathlib.Algebra.Order.Round
import ReversePolish.Proofs.Sum

namespace ReversePolish.Number

variable {x y : Float} {n n' : ℕ} {t : ℤ} {q u v w v' w' c : ℚ}

/-! ## Order -/

theorem toRat_one : toRat 1.0 = 1 := by
  have hunpack : (1.0 : Float).toModel.unpack = .finite .positive (2 ^ 52) (-52) (by decide) := rfl
  rw [toRat_of_finite hunpack]
  norm_num [signed]

/-- Finite floats are in range. -/
theorem toRat_lt_limit (hx : x.isFinite = true) : toRat x < limit := by
  refine (le_abs_self _).trans_lt ?_
  rcases unpacks_of_isFinite hx with ⟨sign, hux⟩ | ⟨sign, m, e, hc, hux⟩
  · rw [toRat_of_zero hux, abs_zero]
    exact (two_zpow_pos _).trans_le le_limit
  · rw [toRat_of_finite hux, abs_signed, abs_of_pos hc.value_pos]
    exact hc.lt_limit

/-- Rounding does not go below a float. -/
theorem Nearest.le_toRat (h : Nearest q x) (hy : y.isFinite = true) (hle : toRat y ≤ q) :
    toRat y ≤ toRat x := by
  by_contra hlt
  have hdistance := h.le hy
  rw [abs_of_nonneg (by linarith), abs_of_nonneg (by linarith)] at hdistance
  linarith

/-! ## One rounding -/

/-- The greatest relative error of a rounding: half a unit in the last of `53` digits. -/
def roundoff : ℚ :=
  2 ^ (-53 : ℤ)

theorem roundoff_pos : 0 < roundoff :=
  two_zpow_pos _

theorem roundoff_lt_one : roundoff < 1 := by
  rw [roundoff]
  norm_num

/-- There is an exponent at which the number has exactly `53` digits before its point. -/
theorem exists_full (hleast : 2 ^ (-1022 : ℤ) ≤ v) :
    ∃ t : ℤ, -1074 ≤ t ∧ 2 ^ (t + 52) ≤ v ∧ v < 2 ^ (t + 53) := by
  have hpos : 0 < v := (two_zpow_pos _).trans_le hleast
  have hlog : -1022 ≤ Int.log 2 v := by
    refine (Int.zpow_le_iff_le_log (by decide) hpos).1 ?_
    exact_mod_cast hleast
  have hle := Int.zpow_log_le_self (b := 2) (by decide) hpos
  have hlt := Int.lt_zpow_succ_log_self (b := 2) (by decide) v
  refine ⟨Int.log 2 v - 52, by omega, ?_, ?_⟩
  · rw [sub_add_cancel]
    exact_mod_cast hle
  · have hsum : Int.log 2 v - 52 + 53 = Int.log 2 v + 1 := by omega
    rw [hsum]
    exact_mod_cast hlt

/-- An integer of at most `53` digits is a float, unless it is out of range. -/
theorem exists_float_of_le (hn : n ≤ 2 ^ 53) (hleast : -1074 ≤ t)
    (hgreatest : t ≤ 970 ∨ t = 971 ∧ n < 2 ^ 53) :
    ∃ x : Float, x.isFinite = true ∧ toRat x = n * 2 ^ t := by
  rcases Nat.eq_zero_or_pos n with rfl | hpos
  · exact ⟨0.0, rfl, by rw [Nat.cast_zero, zero_mul]; rfl⟩
  rcases hn.lt_or_eq with hlt | rfl
  · obtain ⟨m, e, hc, hvalue⟩ := exists_canonical hpos hlt hleast (by omega)
    rw [← hvalue]
    exact hc.exists_float .positive
  · have hc : Canonical (2 ^ 52) (t + 1) :=
      ⟨by decide, by decide, by omega, by omega, .inl le_rfl⟩
    have hvalue : ((2 ^ 53 : ℕ) : ℚ) * 2 ^ t = (2 ^ 52 : ℕ) * 2 ^ (t + 1) := by
      rw [zpow_add_one₀ (by decide)]
      push_cast
      ring
    rw [hvalue]
    exact hc.exists_float .positive

/-- Of the numbers in range, only the greatest have the exponent `971`. -/
theorem exponent_of_lt_limit (hfull : 2 ^ 52 ≤ q) (hlimit : q * 2 ^ t < limit) :
    t ≤ 970 ∨ t = 971 ∧ q < 2 ^ 53 - 1 / 2 := by
  rcases lt_trichotomy t 971 with hlt | rfl | hgt
  · exact Or.inl (by omega)
  · rw [limit_eq] at hlimit
    exact Or.inr ⟨rfl, lt_of_mul_lt_mul_right hlimit (two_zpow_pos _).le⟩
  · have hge : (2 : ℚ) ^ (1024 : ℤ) ≤ q * 2 ^ t :=
      calc (2 : ℚ) ^ (1024 : ℤ) ≤ 2 ^ (52 + t) := zpow_le_zpow_right₀ (by decide) (by omega)
        _ = 2 ^ 52 * 2 ^ t := by rw [zpow_add₀ (by decide)]; rfl
        _ ≤ q * 2 ^ t := mul_le_mul_of_nonneg_right hfull (two_zpow_pos t).le
    exact absurd (hge.trans_lt hlimit) limit_le.not_gt

/-- Some float is as close as half a unit in the last digit. -/
theorem exists_near (hleast : 2 ^ (-1022 : ℤ) ≤ v) (hlimit : v < limit) :
    ∃ y : Float, y.isFinite = true ∧ |v - toRat y| ≤ v * roundoff := by
  obtain ⟨t, hexponent, hfull, hlt⟩ := exists_full hleast
  have hpos := two_zpow_pos t
  obtain ⟨q, rfl⟩ : ∃ q, v = q * 2 ^ t := ⟨v / 2 ^ t, (div_mul_cancel₀ v hpos.ne').symm⟩
  rw [add_comm, zpow_add₀ (by decide)] at hfull hlt
  have hlow : 2 ^ 52 ≤ q := le_of_mul_le_mul_right hfull hpos
  have hhigh : q < 2 ^ 53 := lt_of_mul_lt_mul_right hlt hpos.le
  have hround := abs_sub_round q
  obtain ⟨hbelow, habove⟩ := abs_le.1 hround
  obtain ⟨n, hn⟩ : ∃ n : ℕ, round q = n := by
    refine Int.eq_ofNat_of_zero_le ?_
    have hnonneg : (0 : ℚ) < round q := by linarith
    exact_mod_cast hnonneg.le
  rw [hn, Int.cast_natCast] at hround hbelow habove
  have hdigits : n ≤ 2 ^ 53 := by
    have hless : (n : ℚ) < 2 ^ 53 + 1 := by linarith
    exact Nat.le_of_lt_succ (by exact_mod_cast hless)
  have hgreatest : t ≤ 970 ∨ t = 971 ∧ n < 2 ^ 53 := by
    refine (exponent_of_lt_limit hlow hlimit).imp_right fun h => ⟨h.1, ?_⟩
    have hless : (n : ℚ) < 2 ^ 53 := by linarith [h.2]
    exact_mod_cast hless
  obtain ⟨y, hy, hvalue⟩ := exists_float_of_le hdigits hexponent hgreatest
  refine ⟨y, hy, ?_⟩
  have hhalf : 1 / 2 ≤ q * roundoff := by
    have hunit : (2 : ℚ) ^ 52 * roundoff = 1 / 2 := by
      rw [roundoff]
      norm_num
    rw [← hunit]
    exact mul_le_mul_of_nonneg_right hlow roundoff_pos.le
  rw [hvalue, ← sub_mul, abs_mul, abs_of_pos hpos, mul_right_comm]
  exact mul_le_mul_of_nonneg_right (hround.trans hhalf) hpos.le

/-- **The relative error** of one rounding. -/
theorem Nearest.abs_sub_le (h : Nearest v x) (hleast : 2 ^ (-1022 : ℤ) ≤ v) (hlimit : v < limit) :
    |v - toRat x| ≤ v * roundoff := by
  obtain ⟨y, hy, hnear⟩ := exists_near hleast hlimit
  exact (h.le hy).trans hnear

/-! ## Several roundings -/

/-- The numbers are equal up to `n` roundings. -/
structure Approximates (n : ℕ) (v w : ℚ) : Prop where
  le : (1 - roundoff) ^ n * v ≤ w
  ge : (1 - roundoff) ^ n * w ≤ v

theorem pow_roundoff_nonneg (n : ℕ) : 0 ≤ (1 - roundoff) ^ n :=
  pow_nonneg (sub_nonneg.2 roundoff_lt_one.le) n

theorem approximates_self (v : ℚ) : Approximates 0 v v := by
  have hle : (1 - roundoff) ^ 0 * v ≤ v := by rw [pow_zero, one_mul]
  exact ⟨hle, hle⟩

/-- A number that is rounded once. -/
theorem Nearest.approximates (h : Nearest v x) (hleast : 2 ^ (-1022 : ℤ) ≤ v)
    (hlimit : v < limit) : Approximates 1 v (toRat x) := by
  have hpos : 0 < v := (two_zpow_pos _).trans_le hleast
  obtain ⟨hlow, hhigh⟩ := abs_le.1 (h.abs_sub_le hleast hlimit)
  have hsquare : 0 ≤ v * (roundoff * roundoff) :=
    mul_nonneg hpos.le (mul_nonneg roundoff_pos.le roundoff_pos.le)
  refine ⟨?_, ?_⟩ <;> rw [pow_one]
  · linarith
  · calc (1 - roundoff) * toRat x ≤ (1 - roundoff) * (v + v * roundoff) :=
          mul_le_mul_of_nonneg_left (by linarith) (sub_nonneg.2 roundoff_lt_one.le)
      _ = v - v * (roundoff * roundoff) := by ring
      _ ≤ v := by linarith

/-- Numbers from `1` on are not too small. -/
theorem Nearest.approximates_of_one_le (h : Nearest v x) (hone : 1 ≤ v) (hlimit : v < limit) :
    Approximates 1 v (toRat x) :=
  h.approximates ((zpow_le_one_of_nonpos₀ (by decide) (by decide)).trans hone) hlimit

theorem Approximates.trans (h : Approximates n u v) (h' : Approximates n' v w) :
    Approximates (n + n') u w := by
  refine ⟨?_, ?_⟩
  · calc (1 - roundoff) ^ (n + n') * u = (1 - roundoff) ^ n' * ((1 - roundoff) ^ n * u) := by ring
      _ ≤ (1 - roundoff) ^ n' * v := mul_le_mul_of_nonneg_left h.le (pow_roundoff_nonneg n')
      _ ≤ w := h'.le
  · calc (1 - roundoff) ^ (n + n') * w = (1 - roundoff) ^ n * ((1 - roundoff) ^ n' * w) := by ring
      _ ≤ (1 - roundoff) ^ n * v := mul_le_mul_of_nonneg_left h'.ge (pow_roundoff_nonneg n)
      _ ≤ u := h.ge

theorem Approximates.mul_right (h : Approximates n v w) (hc : 0 ≤ c) :
    Approximates n (v * c) (w * c) := by
  refine ⟨?_, ?_⟩ <;> rw [← mul_assoc]
  · exact mul_le_mul_of_nonneg_right h.le hc
  · exact mul_le_mul_of_nonneg_right h.ge hc

theorem Approximates.add (h : Approximates n v w) (h' : Approximates n v' w') :
    Approximates n (v + v') (w + w') := by
  refine ⟨?_, ?_⟩ <;> rw [mul_add]
  · exact add_le_add h.le h'.le
  · exact add_le_add h.ge h'.ge

/-- More roundings allow for more. -/
theorem Approximates.mono (h : Approximates n v w) (hn : n ≤ n') (hv : 0 ≤ v) (hw : 0 ≤ w) :
    Approximates n' v w := by
  have hpow : (1 - roundoff) ^ n' ≤ (1 - roundoff) ^ n :=
    pow_le_pow_of_le_one (sub_nonneg.2 roundoff_lt_one.le) (sub_le_self 1 roundoff_pos.le) hn
  exact ⟨(mul_le_mul_of_nonneg_right hpow hv).trans h.le,
    (mul_le_mul_of_nonneg_right hpow hw).trans h.ge⟩

/-- A few thousand roundings keep the first `42` digits. -/
theorem le_pow_of_le (hn : n ≤ 2 ^ 11) : 1 - 2 ^ (-42 : ℤ) ≤ (1 - roundoff) ^ n := by
  have hbernoulli := one_add_mul_le_pow (a := -roundoff)
    ((by decide : (-2 : ℚ) ≤ -1).trans (neg_le_neg roundoff_lt_one.le)) n
  rw [← sub_eq_add_neg, mul_neg, ← sub_eq_add_neg] at hbernoulli
  refine le_trans (sub_le_sub_left ?_ 1) hbernoulli
  have hcast : (n : ℚ) ≤ 2 ^ 11 := by exact_mod_cast hn
  calc n * roundoff ≤ 2 ^ 11 * roundoff := mul_le_mul_of_nonneg_right hcast roundoff_pos.le
    _ = 2 ^ (-42 : ℤ) := by
      rw [roundoff]
      norm_num

/-- A few thousand roundings do not make a number much smaller ... -/
theorem Approximates.mul_le (h : Approximates n v w) (hn : n ≤ 2 ^ 11) (hv : 0 ≤ v) :
    (1 - 2 ^ (-42 : ℤ)) * v ≤ w :=
  (mul_le_mul_of_nonneg_right (le_pow_of_le hn) hv).trans h.le

/-- ... or greater. -/
theorem Approximates.mul_ge (h : Approximates n v w) (hn : n ≤ 2 ^ 11) (hw : 0 ≤ w) :
    (1 - 2 ^ (-42 : ℤ)) * w ≤ v :=
  (mul_le_mul_of_nonneg_right (le_pow_of_le hn) hw).trans h.ge

theorem Approximates.nonneg (h : Approximates n v w) (hv : 0 ≤ v) : 0 ≤ w :=
  (mul_nonneg (pow_roundoff_nonneg n) hv).trans h.le

end ReversePolish.Number

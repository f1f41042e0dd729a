/-
  Decimals and the floats nearest to them.

  * `Decimal.toRat` is the exact value of a decimal;
  * `Decimal.rounds_toFloat`: a decimal is rounded once, whatever the number of its
    digits and its exponent are;
  * `Literal.rounds_toFloat`: so is a literal, with its sign.
-/
import ReversePolish.Number.Literal
import ReversePolish.Proofs.Residues

namespace ReversePolish.Number

open Float.Model (UnpackedFloat)
open Float.Model.UnpackedFloat (Sign divCore roundWithAccuracy)

namespace Decimal

/-- The exact value. -/
def toRat (d : Decimal) : ℚ :=
  d.coefficient * 10 ^ d.exponent

variable {c n z : ℕ} {e : ℤ}

/-- The float of what a decimal is unpacked. -/
theorem toFloat_eq (c : ℕ) (e : ℤ) :
    toFloat ⟨c, e⟩ = .ofModel (.pack (.ofScientific .binary64 c e)) :=
  rfl

/-! ## Decimals out of range -/

theorem limit_le_of_lt (hc : 0 < c) (he : 2 ^ 11 < e) : limit ≤ c * 10 ^ e := by
  have hone : (1 : ℚ) ≤ c := by exact_mod_cast hc
  have hten : (0 : ℚ) < 10 ^ e := zpow_pos (by decide) e
  calc limit ≤ 2 ^ (1024 : ℤ) := limit_le
    _ ≤ 2 ^ e := zpow_le_zpow_right₀ (by decide) (by omega)
    _ ≤ 10 ^ e := zpow_le_zpow_left₀ (by omega) (by decide) (by decide)
    _ ≤ c * 10 ^ e := le_mul_of_one_le_left hten.le hone

/-- Decimals that are less than half of the least float. -/
theorem toRat_lt_of_lt (he : e < -(2 ^ 11 + c.log2)) :
    (c : ℚ) * 10 ^ e < 2 ^ (-1075 : ℤ) := by
  have hten : (10 : ℚ) ^ e ≤ 2 ^ e := by
    have hpow : (2 : ℚ) ^ (-e) ≤ 10 ^ (-e) := zpow_le_zpow_left₀ (by omega) (by decide) (by decide)
    rw [zpow_neg, zpow_neg] at hpow
    exact (inv_le_inv₀ (two_zpow_pos e) (zpow_pos (by decide) e)).1 hpow
  have hdigits : (c : ℚ) < 2 ^ (c.log2 + 1) := by
    exact_mod_cast Nat.lt_log2_self
  calc (c : ℚ) * 10 ^ e ≤ c * 2 ^ e := mul_le_mul_of_nonneg_left hten (Nat.cast_nonneg c)
    _ < 2 ^ (c.log2 + 1) * 2 ^ e := mul_lt_mul_of_pos_right hdigits (two_zpow_pos e)
    _ = 2 ^ ((c.log2 + 1 : ℕ) + e) := by rw [← zpow_natCast, ← zpow_add₀ (by decide)]
    _ ≤ 2 ^ (-1075 : ℤ) := zpow_le_zpow_right₀ (by decide) (by push_cast; omega)

/-! ## Rounding -/

/-- A decimal that is an integer. -/
theorem rounds_natCast (hc : 0 < c) (hz : z ≤ 2 ^ 11) :
    Rounds .positive (c * 10 ^ z) (toFloat ⟨c, z⟩) := by
  have hfine : Fine (c * 10 ^ z * 2 ^ 53) (0 - 53) := by
    left
    rw [log2_mul_two_pow (Nat.mul_pos hc (Nat.pow_pos (by decide)))]
    omega
  have hvalue : (c : ℚ) * 10 ^ z = (c * 10 ^ z * 2 ^ 53 : ℕ) * 2 ^ (0 - 53 : ℤ) := by
    rw [Nat.cast_mul, Nat.cast_pow, Nat.cast_ofNat, mul_assoc, zero_sub, zpow_neg, zpow_ofNat,
      mul_inv_cancel₀ (by decide), mul_one, Nat.cast_mul, Nat.cast_pow, Nat.cast_ofNat]
  rw [toFloat_eq, ofScientific_natCast hc hz, hvalue]
  exact rounds_exact hfine .positive

/-- A decimal that is a fraction. -/
theorem rounds_neg (hc : 0 < c) (hpos : 0 < n) (hn : n ≤ 2 ^ 11 + c.log2) :
    Rounds .positive (c * 10 ^ (-n : ℤ)) (toFloat ⟨c, -n⟩) := by
  have hvalue : (c : ℚ) * 10 ^ (-n : ℤ) = c * 2 ^ (0 : ℤ) / ((10 ^ n : ℕ) * 2 ^ (0 : ℤ)) := by
    rw [zpow_neg, zpow_natCast, zpow_zero, mul_one, mul_one, Nat.cast_pow, Nat.cast_ofNat,
      div_eq_mul_inv]
  rw [toFloat_eq, ofScientific_neg hc hpos hn, hvalue]
  exact rounds_divCore hc (Nat.pow_pos (by decide)) 0 0 .positive

/-- **A decimal** is rounded once. -/
theorem rounds_toFloat (d : Decimal) : Rounds .positive d.toRat d.toFloat := by
  obtain ⟨c, e⟩ := d
  rw [toRat]
  dsimp only
  rcases Nat.eq_zero_or_pos c with rfl | hc
  · rw [Nat.cast_zero, zero_mul]
    exact rounds_zero le_rfl (two_zpow_pos _) .positive
  rcases lt_or_ge (2 ^ 11) e with hgreat | hgreat
  · have hlimit := limit_le_of_lt hc hgreat
    have hinfinity : toFloat ⟨c, e⟩ = .ofModel (.pack (.infinity .positive)) := by
      rw [toFloat_eq, UnpackedFloat.ofScientific, dif_neg hc.ne', exponentRange,
        if_pos (by omega)]
    rw [hinfinity]
    exact rounds_of_le hlimit .positive
  rcases lt_or_ge e (-(2 ^ 11 + c.log2)) with hsmall | hsmall
  · have hzero : toFloat ⟨c, e⟩ = .ofModel (.pack (.zero .positive)) := by
      rw [toFloat_eq, UnpackedFloat.ofScientific, dif_neg hc.ne', exponentRange,
        if_neg (by omega), if_pos (by omega)]
    rw [hzero]
    exact rounds_zero (by positivity) (toRat_lt_of_lt hsmall) .positive
  cases e with
  | ofNat z =>
    have hz : (z : ℤ) ≤ 2 ^ 11 := hgreat
    exact rounds_natCast hc (by omega)
  | negSucc n => exact rounds_neg hc (Nat.succ_pos n) (by omega)

end Decimal

namespace Literal

/-- The sign that a literal has. -/
def sign (literal : Literal) : Sign :=
  if literal.negative then .negative else .positive

/-- **A literal** is rounded once, and keeps its sign. -/
theorem rounds_toFloat (literal : Literal) :
    Rounds literal.sign literal.magnitude.toRat literal.toFloat := by
  obtain ⟨negative, magnitude⟩ := literal
  have hmagnitude := magnitude.rounds_toFloat
  cases negative
  · exact hmagnitude
  · exact hmagnitude.neg

end Literal

end ReversePolish.Number

/-
  Remainders of floats are exact.

  * `Number.alignedRemainder_lt`: the remainder of aligned digits has no more digits
    than floats have;
  * `Number.divides`: a finite dividend is a multiple of the divisor and the
    remainder, of which nothing is rounded off.
-/
import ReversePolish.Number.Remainder
import ReversePolish.Proofs.Sum

namespace ReversePolish.Number

open Float.Model (UnpackedFloat)
open Float.Model.UnpackedFloat (Sign)

variable {x y : Float} {sign sign' : Sign} {m m' r : ℕ} {e e' t : ℤ} {hm : 0 < m} {hm' : 0 < m'}

/-! ## Aligned digits -/

/-- The digits `m` at the exponent `e` are a multiple of `m'` at `e'`, up to the
    remainder. -/
theorem alignedRemainder_spec (h : alignedRemainder m e m' e' = (r, t)) :
    t = min e e' ∧ ∃ n : ℕ, (m : ℚ) * 2 ^ e = n * (m' * 2 ^ e') + r * 2 ^ t := by
  rw [alignedRemainder] at h
  obtain ⟨rfl, rfl⟩ := Prod.mk.inj h
  refine ⟨rfl, (m * 2 ^ (e - min e e').toNat) / (m' * 2 ^ (e' - min e e').toNat), ?_⟩
  rw [mul_two_zpow m (min_le_left e e'), mul_two_zpow m' (min_le_right e e'), ← mul_assoc,
    ← add_mul]
  congr 1
  exact_mod_cast (Nat.div_add_mod' _ _).symm

/-- The remainder is smaller than the divisor, and has no more digits than that one of
    both numbers that has the smaller exponent. -/
theorem alignedRemainder_lt (hc : Canonical m e) (hc' : Canonical m' e')
    (h : alignedRemainder m e m' e' = (r, t)) : r < 2 ^ 53 ∧ (r : ℚ) * 2 ^ t < m' * 2 ^ e' := by
  rw [alignedRemainder] at h
  obtain ⟨hr, rfl⟩ := Prod.mk.inj h
  have hpos : 0 < m' * 2 ^ (e' - min e e').toNat := Nat.mul_pos hc'.pos (Nat.two_pow_pos _)
  have hlt : r < m' * 2 ^ (e' - min e e').toNat := by
    rw [← hr]
    exact Nat.mod_lt _ hpos
  constructor
  · rcases le_total e e' with hle | hle
    · have hle' : r ≤ m := by
        rw [← hr, min_eq_left hle, Int.sub_self]
        exact (Nat.mod_le _ _).trans_eq (Nat.mul_one m)
      exact hle'.trans_lt hc.lt
    · rw [min_eq_right hle, Int.sub_self] at hlt
      exact (hlt.trans_eq (Nat.mul_one m')).trans hc'.lt
  · rw [mul_two_zpow m' (min_le_right e e')]
    exact mul_lt_mul_of_pos_right (Nat.cast_lt.2 hlt) (two_zpow_pos _)

/-! ## Floats -/

theorem remainder_eq (x y : Float) :
    remainder x y = .ofModel (.pack (unpackedRemainder x.toModel.unpack y.toModel.unpack)) :=
  rfl

theorem unpackedRemainder_of_zero (h : alignedRemainder m e m' e' = (0, t)) :
    unpackedRemainder (.finite sign m e hm) (.finite sign' m' e' hm') = .zero sign := by
  delta unpackedRemainder
  dsimp only
  rw [h]
  rfl

theorem unpackedRemainder_of_pos (hr : 0 < r) (h : alignedRemainder m e m' e' = (r, t)) :
    unpackedRemainder (.finite sign m e hm) (.finite sign' m' e' hm') =
      .round .binary64 sign r t := by
  delta unpackedRemainder
  dsimp only
  rw [h]
  cases r with
  | zero => exact absurd hr (Nat.lt_irrefl 0)
  | succ r => rfl

/-- The dividend is a multiple of the divisor and the remainder, which has the sign of
    the dividend and is smaller than the divisor. -/
structure Divides (x y remainder : Float) : Prop where
  isFinite : remainder.isFinite = true
  lt : |toRat remainder| < |toRat y|
  exact : ∃ sign n r, 0 ≤ r ∧ toRat x = signed sign ((n : ℕ) * |toRat y| + r) ∧
    toRat remainder = signed sign r

/-- **The remainder** of finite floats is exact. -/
theorem divides (hx : x.isFinite = true) (hy : y.isFinite = true) (hne : toRat y ≠ 0) :
    Divides x y (remainder x y) := by
  rcases unpacks_of_isFinite hy with ⟨sign', huy⟩ | ⟨sign', m', e', hc', huy⟩
  · exact absurd (toRat_of_zero huy) hne
  have hyabs : |toRat y| = m' * 2 ^ e' := by
    rw [toRat_of_finite huy, abs_signed, abs_of_pos hc'.value_pos]
  rcases unpacks_of_isFinite hx with ⟨sign, hux⟩ | ⟨sign, m, e, hc, hux⟩
  · have hzero : remainder x y = .ofModel (.pack (.zero sign)) := by
      rw [remainder_eq, hux, huy]
      rfl
    have hvalue := toRat_of_zero (unpack_zero sign)
    rw [hzero]
    refine ⟨isFinite_zero sign, ?_, sign, 0, 0, le_rfl, ?_, ?_⟩
    · rw [hvalue, abs_zero, hyabs]
      exact hc'.value_pos
    · rw [toRat_of_zero hux, Nat.cast_zero, zero_mul, add_zero, signed_zero]
    · rw [hvalue, signed_zero]
  · obtain ⟨r, t, hrt⟩ : ∃ r t, alignedRemainder m e m' e' = (r, t) := ⟨_, _, rfl⟩
    obtain ⟨ht, n, hspec⟩ := alignedRemainder_spec hrt
    obtain ⟨hdigits, hlt⟩ := alignedRemainder_lt hc hc' hrt
    have hremainder : (remainder x y).isFinite = true ∧
        toRat (remainder x y) = signed sign (r * 2 ^ t) := by
      rcases Nat.eq_zero_or_pos r with rfl | hr
      · have hzero : remainder x y = .ofModel (.pack (.zero sign)) := by
          rw [remainder_eq, hux, huy, unpackedRemainder_of_zero hrt]
        rw [hzero, toRat_of_zero (unpack_zero sign), Nat.cast_zero, zero_mul, signed_zero]
        exact ⟨isFinite_zero sign, rfl⟩
      · have hle := hc.le
        have hge := hc.ge
        have hle' := hc'.le
        refine toRat_round hr hdigits (by omega) (by omega) sign ?_
        rw [remainder_eq, hux, huy, unpackedRemainder_of_pos hr hrt]
    have hnonneg : (0 : ℚ) ≤ r * 2 ^ t := mul_nonneg (Nat.cast_nonneg r) (two_zpow_pos t).le
    refine ⟨hremainder.1, ?_, sign, n, r * 2 ^ t, hnonneg, ?_, hremainder.2⟩
    · rw [hremainder.2, abs_signed, abs_of_nonneg hnonneg, hyabs]
      exact hlt
    · rw [toRat_of_finite hux, hyabs, hspec]

end ReversePolish.Number

/-
  Odd multiples of the right angle.

  * `Number.OddRightAngle` are the floats that are such multiples, exactly;
  * `Number.euclideanRemainder_eq_iff`: their remainders of the division by `180` are
    `90`, no others are, although the remainder of a negative angle is rounded;
  * `Operation.tangent_rejects_oddRightAngles`: the tangent fails for these angles only.
-/
import ReversePolish.Proofs.Remainder
import ReversePolish.Proofs.Transaction

namespace ReversePolish

namespace Number

open Float.Model (UnpackedFloat)
open Float.Model.UnpackedFloat (Sign)

variable {x y : Float} {sign : Sign} {n : ℕ} {q r : ℚ}

/-- The float is an odd multiple of `90`. -/
def OddRightAngle (x : Float) : Prop :=
  x.isFinite = true ∧ ∃ k : ℤ, toRat x = (2 * k + 1) * 90

/-! ## Multiples -/

theorem unpack_straight :
    (180.0 : Float).toModel.unpack = .finite .positive (180 * 2 ^ 45) (-45) (by decide) :=
  rfl

theorem unpack_right :
    (90.0 : Float).toModel.unpack = .finite .positive (90 * 2 ^ 46) (-46) (by decide) :=
  rfl

theorem toRat_straight : toRat 180.0 = 180 := by
  rw [toRat_of_finite unpack_straight]
  norm_num [signed]

theorem toRat_right : toRat 90.0 = 90 := by
  rw [toRat_of_finite unpack_right]
  norm_num [signed]

/-- Of the odd multiples of `90`, only `90` itself is a remainder. -/
theorem eq_ninety {j : ℤ} (hr : 0 ≤ r) (hlt : r < 180) (h : r = (2 * j + 1) * 90) : r = 90 := by
  have hlow : (-1 : ℚ) < 2 * j + 1 := by linarith
  have hhigh : (2 * j + 1 : ℚ) < 2 := by linarith
  have hj : -1 < 2 * j + 1 ∧ 2 * j + 1 < 2 := by exact_mod_cast And.intro hlow hhigh
  obtain rfl : j = 0 := by omega
  rw [h]
  norm_num

theorem exists_odd_iff (hr : 0 ≤ r) (hlt : r < 180) :
    (∃ k : ℤ, signed sign (n * 180 + r) = (2 * k + 1) * 90) ↔ r = 90 := by
  constructor
  · rintro ⟨k, hk⟩
    cases sign
    · refine @eq_ninety r (-k - n - 1) hr hlt ?_
      rw [signed] at hk
      push_cast
      linarith
    · refine @eq_ninety r (k - n) hr hlt ?_
      rw [signed] at hk
      push_cast
      linarith
  · rintro rfl
    cases sign
    · refine ⟨-n - 1, ?_⟩
      rw [signed]
      push_cast
      ring
    · refine ⟨n, ?_⟩
      rw [signed]
      push_cast
      ring

/-! ## Rounding near the right angle -/

/-- What is rounded to `90` is closer to it than the neighbouring floats are. -/
theorem abs_sub_lt_of_nearest (h : Nearest q x) (hx : toRat x = 90) : |q - 90| < 2 ^ (-46 : ℤ) := by
  have habove : Canonical (90 * 2 ^ 46 + 1) (-46) :=
    ⟨by decide, by decide, by decide, by decide, .inl (by decide)⟩
  have hbelow : Canonical (90 * 2 ^ 46 - 1) (-46) :=
    ⟨by decide, by decide, by decide, by decide, .inl (by decide)⟩
  obtain ⟨y, hy, hyvalue⟩ := habove.exists_float .positive
  obtain ⟨z, hz, hzvalue⟩ := hbelow.exists_float .positive
  have hy90 : toRat y = 90 + 2 ^ (-46 : ℤ) := by
    rw [hyvalue]
    norm_num [signed]
  have hz90 : toRat z = 90 - 2 ^ (-46 : ℤ) := by
    rw [hzvalue]
    norm_num [signed]
  have hle := h.le hy
  have hle' := h.le hz
  have hu := two_zpow_pos (-46)
  rw [hx, hy90] at hle
  rw [hx, hz90] at hle'
  generalize (2 : ℚ) ^ (-46 : ℤ) = u at hle hle' hu
  rw [abs_lt]
  constructor
  · by_contra hfar
    rw [abs_of_nonpos (by linarith), abs_of_nonpos (by linarith)] at hle'
    linarith
  · by_contra hfar
    rw [abs_of_nonneg (by linarith), abs_of_nonneg (by linarith)] at hle
    linarith

theorem nearest_add_straight (hx : x.isFinite = true) (hlt : |toRat x| < 180) :
    Nearest (toRat x + 180) (x + 180.0) := by
  obtain ⟨hlow, hhigh⟩ := abs_lt.1 hlt
  have hlimit : |toRat x + toRat 180.0| < limit := by
    have hsmall : |toRat x + 180| < 2 ^ (9 : ℤ) := by
      rw [abs_of_nonneg (by linarith)]
      norm_num
      linarith
    have hle : (2 : ℚ) ^ (9 : ℤ) ≤ 2 ^ (1023 : ℤ) := zpow_le_zpow_right₀ (by decide) (by decide)
    rw [toRat_straight]
    exact (hsmall.trans_le hle).trans_le le_limit
  have hnearest := nearest_add hx rfl hlimit
  rwa [toRat_straight] at hnearest

/-- Floats near `-90` are multiples of the distance to its neighbours, unless they are
    small. -/
theorem toRat_eq_of_near (hx : x.isFinite = true) (h : |toRat x + 180 - 90| < 2 ^ (-46 : ℤ)) :
    toRat x = -90 := by
  rcases exists_multiple hx (show -1074 ≤ -46 by decide) with ⟨k, hk, -⟩ | ⟨-, hsmall⟩
  · have hscaled : |(k : ℚ) + 90 * 2 ^ 46| < 1 := by
      have heq : toRat x + 180 - 90 = (k + 90 * 2 ^ 46) * 2 ^ (-46 : ℤ) := by
        rw [hk]
        norm_num
        ring
      rw [heq, abs_mul, abs_of_pos (two_zpow_pos _)] at h
      exact (mul_lt_iff_lt_one_left (two_zpow_pos _)).1 h
    have hk' : |k + 90 * 2 ^ 46| < 1 := by exact_mod_cast hscaled
    obtain rfl : k = -(90 * 2 ^ 46) := by
      have hzero := Int.abs_lt_one_iff.1 hk'
      omega
    rw [hk]
    norm_num
  · have hlow := (abs_lt.1 hsmall).1
    have hhigh := (abs_lt.1 h).2
    norm_num at hlow hhigh
    linarith

/-- No sum with `180` is rounded to `90` that is not `90`. -/
theorem add_straight_eq_iff (hx : x.isFinite = true) (hlt : |toRat x| < 180) :
    toRat (x + 180.0) = 90 ↔ toRat x = -90 := by
  have hnearest := nearest_add_straight hx hlt
  constructor
  · intro hsum
    exact toRat_eq_of_near hx (abs_sub_lt_of_nearest hnearest hsum)
  · intro heq
    have hvalue : toRat 90.0 = toRat x + 180 := by
      rw [toRat_right, heq]
      norm_num
    exact (hnearest.toRat_eq_of_isFinite rfl hvalue).trans (hvalue.symm.trans toRat_right)

/-! ## Remainders by the straight angle -/

theorem euclideanRemainder_of_lt (h : remainder x y < 0.0) :
    euclideanRemainder x y = remainder x y + y.abs :=
  if_pos h

theorem euclideanRemainder_of_not_lt (h : ¬remainder x y < 0.0) :
    euclideanRemainder x y = remainder x y :=
  if_neg h

theorem toRat_zero : toRat 0.0 = 0 :=
  rfl

/-- The rounded remainder of a finite float is `90` if the exact one is, with either
    sign. -/
theorem euclideanRemainder_beq_iff (h : Divides x 180.0 (remainder x 180.0)) :
    (euclideanRemainder x 180.0 == 90.0) = true ↔ |toRat (remainder x 180.0)| = 90 := by
  have hlt := h.lt
  have hfinite := h.isFinite
  rw [toRat_straight, abs_of_pos (by decide : (0 : ℚ) < 180)] at hlt
  by_cases hneg : remainder x 180.0 < 0.0
  · have hneg' := (lt_iff hfinite rfl).1 hneg
    rw [toRat_zero] at hneg'
    have habs : (180.0 : Float).abs = 180.0 := rfl
    rw [euclideanRemainder_of_lt hneg, habs,
      beq_iff (nearest_add_straight hfinite hlt).isFinite rfl, toRat_right,
      add_straight_eq_iff hfinite hlt, abs_of_neg hneg', neg_eq_iff_eq_neg]
  · have hnonneg : 0 ≤ toRat (remainder x 180.0) := by
      by_contra hneg'
      exact hneg ((lt_iff hfinite rfl).2 (not_le.1 hneg'))
    rw [euclideanRemainder_of_not_lt hneg, beq_iff hfinite rfl, toRat_right, abs_of_nonneg hnonneg]

theorem euclideanRemainder_ne_of_not_isFinite (h : x.isFinite = false) :
    (euclideanRemainder x 180.0 == 90.0) = false := by
  have hnan : remainder x 180.0 = .ofModel (.pack .notANumber) := by
    rw [remainder_eq, unpack_straight]
    rcases hx : x.toModel.unpack with sign | - | sign | ⟨sign, m, e, hm⟩
    · rfl
    · rfl
    · rw [isFinite_eq, hx] at h
      cases h
    · rw [isFinite_eq, hx] at h
      cases h
  rw [euclideanRemainder, hnan]
  decide

/-- **The remainder by `180`** is `90` for the odd multiples of `90` only. -/
theorem euclideanRemainder_eq_iff (x : Float) :
    (euclideanRemainder x 180.0 == 90.0) = true ↔ OddRightAngle x := by
  by_cases hx : x.isFinite = true
  · have hne : toRat 180.0 ≠ 0 := by
      rw [toRat_straight]
      decide
    have hdivides := divides hx rfl hne
    obtain ⟨sign, n, r, hr, hdividend, hremainder⟩ := hdivides.exact
    have hlt := hdivides.lt
    rw [toRat_straight, abs_of_pos (by decide : (0 : ℚ) < 180)] at hdividend hlt
    rw [hremainder, abs_signed, abs_of_nonneg hr] at hlt
    rw [euclideanRemainder_beq_iff hdivides, hremainder, abs_signed, abs_of_nonneg hr,
      ← @exists_odd_iff sign n r hr hlt, ← hdividend, OddRightAngle, and_iff_right hx]
  · rw [euclideanRemainder_ne_of_not_isFinite (Bool.not_eq_true _ ▸ hx)]
    exact iff_of_false Bool.false_ne_true fun h => hx h.1

example : (euclideanRemainder (-270.0) 180.0 == 90.0) = true := by decide +kernel

end Number

namespace Operation

open Stack (ofValues)

/-- **The tangent** fails for the odd multiples of the right angle, and leaves them on
    the stack.  It has a result for any other angle, infinities and NaN included. -/
theorem tangent_rejects_oddRightAngles (below : List Float) (x : Float) :
    ((∃ message left, tangent.apply.run (ofValues (below ++ [x])) =
      .error (.outsideDomain message) left) ↔ Number.OddRightAngle x) ∧
    (Number.OddRightAngle x → tangent.apply.run (ofValues (below ++ [x])) =
      .error (.outsideDomain s!"tangent is undefined at {Number.text x} degrees")
        (ofValues (below ++ [x]))) ∧
    (¬Number.OddRightAngle x → tangent.apply.run (ofValues (below ++ [x])) =
      .ok () (ofValues (below ++ [(radians x).tan]))) ∧
    ((Number.euclideanRemainder x 180.0 == 90.0) = true ↔ Number.OddRightAngle x) := by
  have hiff := Number.euclideanRemainder_eq_iff x
  have hrun := @run_apply tangent below [x] rfl
  have hcompute : tangent.compute [x] = tangentOf x := rfl
  rw [hcompute, tangentOf] at hrun
  by_cases hodd : Number.OddRightAngle x
  · rw [if_pos (hiff.2 hodd)] at hrun
    exact ⟨iff_of_true ⟨_, _, hrun⟩ hodd, fun _ => hrun, fun h => absurd hodd h, hiff⟩
  · rw [if_neg (mt hiff.1 hodd)] at hrun
    refine ⟨iff_of_false ?_ hodd, fun h => absurd h hodd, fun _ => hrun, hiff⟩
    rintro ⟨message, left, herror⟩
    rw [hrun] at herror
    cases herror

end Operation

end ReversePolish

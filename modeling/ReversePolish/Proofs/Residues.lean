/-
  Rounding mantissas of any length.

  * `Number.Locates` relates a mantissa and its two residue bits to the number that
    they are cut off from, `Number.Locates.isRounded`: the bits suffice for rounding
    that number to an integer;
  * `Number.rounds_roundWithAccuracy`: such a mantissa is rounded as the number is;
  * `Number.rounds_divCore` and `Number.rounds_round`: so are quotients, and mantissas
    with any exponent.
-/
import ReversePolish.Proofs.Nearest
import ReversePolish.Proofs.Rounding

namespace ReversePolish.Number

open Float.Model (Format UnpackedFloat totalExponent)
open Float.Model.UnpackedFloat (Sign Accuracy ExtendedMantissa roundWithAccuracy
  shiftToExponent shiftToTargetExponent accuracyOfFraction divCore decreaseExponent)

variable {sign : Sign} {em : ExtendedMantissa} {accuracy : Accuracy}
variable {m n : ℕ} {e t : ℤ} {q v : ℚ}

/-! ## Residues -/

/-- The number that the mantissa is cut off from: the round bit is the next binary
    digit, the sticky bit tells whether any digits follow. -/
structure Locates (em : ExtendedMantissa) (q : ℚ) : Prop where
  le : em.mantissa + em.roundBit.toNat / 2 ≤ q
  lt : q < em.mantissa + em.roundBit.toNat / 2 + 1 / 2
  exact_iff : em.stickyBit = false ↔ q = em.mantissa + em.roundBit.toNat / 2

theorem locates_exact (m : ℕ) : Locates ⟨m, false, false⟩ m := by
  refine ⟨?_, ?_, ?_⟩ <;> norm_num

theorem locates_below (hle : m < q) (hlt : q < m + 1 / 2) : Locates ⟨m, false, true⟩ q := by
  refine ⟨?_, ?_, ?_⟩ <;> norm_num
  · exact hle.le
  · linarith
  · exact hle.ne'

theorem locates_half (m : ℕ) : Locates ⟨m, true, false⟩ (m + 1 / 2) := by
  refine ⟨?_, ?_, ?_⟩ <;> norm_num

theorem locates_above (hle : m + 1 / 2 < q) (hlt : q < m + 1) : Locates ⟨m, true, true⟩ q := by
  refine ⟨?_, ?_, ?_⟩ <;> norm_num
  · linarith
  · linarith
  · linarith

/-- A shift by one place makes the last digit the round bit. -/
theorem Locates.shiftRightOne (h : Locates em q) : Locates em.shiftRightOne (q / 2) := by
  obtain ⟨m, round, sticky⟩ := em
  have hle := h.le
  have hlt := h.lt
  have hexact := h.exact_iff
  dsimp only at hle hlt hexact
  have hmantissa : (m : ℚ) = 2 * (m / 2 : ℕ) + (m % 2 != 0).toNat := by
    have hbit : (m % 2 != 0).toNat = m % 2 := by
      rcases Nat.mod_two_eq_zero_or_one m with h | h <;> rw [h] <;> rfl
    rw [hbit]
    exact_mod_cast (Nat.div_add_mod m 2).symm
  have hround : (0 : ℚ) ≤ round.toNat ∧ (round.toNat : ℚ) ≤ 1 := by
    cases round <;> norm_num
  refine ⟨?_, ?_, ?_⟩ <;> dsimp only [ExtendedMantissa.shiftRightOne]
  · linarith
  · linarith
  · rw [Bool.or_eq_false_iff, hexact]
    constructor
    · rintro ⟨rfl, hq⟩
      norm_num at hq
      linarith
    · intro hq
      have hzero : (round.toNat : ℚ) = 0 := by linarith
      have hround : round = false := by
        cases round
        · rfl
        · norm_num at hzero
      exact ⟨hround, by linarith⟩

theorem Locates.repeat_shiftRightOne (h : Locates em q) (k : ℕ) :
    Locates (Nat.repeat ExtendedMantissa.shiftRightOne k em) (q / 2 ^ k) := by
  induction k with
  | zero => rwa [pow_zero, div_one]
  | succ k ih =>
    rw [Nat.repeat, pow_succ, ← div_div]
    exact ih.shiftRightOne

/-- **The residue bits** suffice for rounding. -/
theorem Locates.isRounded (h : Locates em q) : IsRounded q em.roundedMantissa := by
  obtain ⟨m, round, sticky⟩ := em
  have hle := h.le
  have hlt := h.lt
  have hexact := h.exact_iff
  dsimp only at hle hlt hexact
  cases round <;> norm_num at hle hlt hexact
  · have hrounded : ∀ sticky, (⟨m, false, sticky⟩ : ExtendedMantissa).roundedMantissa = m := by
      intro sticky
      cases sticky <;> rfl
    have hnear : |q - m| < 1 / 2 := abs_sub_lt_iff.2 ⟨by linarith, by linarith⟩
    rw [hrounded]
    exact ⟨hnear.le, fun heq => absurd heq hnear.ne⟩
  · cases sticky
    · have hhalf : q = m + 1 / 2 := hexact.1 rfl
      have hrounded : (⟨m, true, false⟩ : ExtendedMantissa).roundedMantissa = m + m % 2 := rfl
      have heven : (m + m % 2) % 2 = 0 := by omega
      rw [hrounded]
      refine ⟨?_, fun _ => heven⟩
      rcases Nat.mod_two_eq_zero_or_one m with hm | hm <;> rw [hm, hhalf] <;>
        norm_num [abs_le]
    · have hrounded : (⟨m, true, true⟩ : ExtendedMantissa).roundedMantissa = m + 1 := rfl
      have hne : q ≠ m + 1 / 2 := fun heq => absurd (hexact.2 heq) (by decide)
      have hgt : m + 1 / 2 < q := lt_of_le_of_ne hle hne.symm
      have hnear : |q - (m + 1 : ℕ)| < 1 / 2 := by
        push_cast
        exact abs_sub_lt_iff.2 ⟨by linarith, by linarith⟩
      rw [hrounded]
      exact ⟨hnear.le, fun heq => absurd heq hnear.ne⟩

/-! ## Shifting and rounding -/

/-- The exponent that a mantissa is shifted to. -/
theorem targetExponent_eq (m : ℕ) (e : ℤ) :
    Format.binary64.targetExponent (totalExponent m e) = max (m.log2 + e - 52) (-1074) := by
  have hbits : Format.binary64.mantissaBits = 53 := rfl
  have hmin : Format.binary64.minExponent = -1074 := rfl
  rw [Format.targetExponent, totalExponent, hbits, hmin]
  omega

/-- A mantissa with at least `53` digits, or with the least exponent. -/
def Fine (m : ℕ) (e : ℤ) : Prop :=
  52 ≤ m.log2 ∨ e ≤ -1074

theorem Fine.le_targetExponent (h : Fine m e) : e ≤ max (m.log2 + e - 52) (-1074) := by
  rcases h with h | h
  · exact le_max_of_le_left (by omega)
  · exact le_max_of_le_right h

/-- At the target exponent a number is rounded. -/
theorem Fine.scaled (h : Fine m e) (hle : (m : ℚ) ≤ v / 2 ^ e) (hlt : v / 2 ^ e < m + 1) :
    Scaled v (max (m.log2 + e - 52) (-1074)) := by
  have hlow : v < 2 ^ (e + (m.log2 + 1 : ℕ)) := by
    have hdigits : (m : ℚ) + 1 ≤ 2 ^ (m.log2 + 1) := by
      exact_mod_cast Nat.lt_log2_self
    exact (div_two_zpow_lt_iff v e _).1 (hlt.trans_le hdigits)
  refine ⟨le_max_right _ _, hlow.trans_le ?_, ?_⟩
  · exact zpow_le_zpow_right₀ (by decide) (by push_cast; omega)
  · rcases Nat.eq_zero_or_pos m with rfl | hpos
    · have hlog : Nat.log2 0 = 0 := rfl
      rcases h with h | h
      · omega
      · exact Or.inr (max_eq_right (by omega))
    · have hdigits : (2 : ℚ) ^ m.log2 ≤ m := by
        exact_mod_cast Nat.log2_self_le hpos.ne'
      have hhigh : 2 ^ (e + m.log2) ≤ v := (le_div_two_zpow_iff v e _).1 (hdigits.trans hle)
      rcases le_total (m.log2 + e - 52) (-1074) with hmin | hmax
      · exact Or.inr (max_eq_right hmin)
      · left
        rwa [max_eq_left hmax, sub_add_cancel, add_comm]

theorem Locates.mantissa_le (h : Locates em q) : em.mantissa ≤ q := by
  have hle := h.le
  have hbit : (0 : ℚ) ≤ em.roundBit.toNat := Nat.cast_nonneg _
  linarith

theorem Locates.lt_mantissa_add_one (h : Locates em q) : q < em.mantissa + 1 := by
  have hlt := h.lt
  have hbit : (em.roundBit.toNat : ℚ) ≤ 1 := by
    exact_mod_cast Bool.toNat_le em.roundBit
  linarith

theorem mantissa_ofMantissaAndAccuracy (m : ℕ) (accuracy : Accuracy) :
    (ExtendedMantissa.ofMantissaAndAccuracy m accuracy).mantissa = m := by
  match accuracy with
  | .exact => rfl
  | .inexact .lt => rfl
  | .inexact .eq => rfl
  | .inexact .gt => rfl

/-- The first shift is to the exponent at which the number is rounded. -/
theorem Fine.exists_shift (h : Fine m e)
    (hloc : Locates (.ofMantissaAndAccuracy m accuracy) (v / 2 ^ e)) :
    ∃ em t, shiftToTargetExponent .binary64 m e accuracy = (em, t) ∧
      Scaled v t ∧ Locates em (v / 2 ^ t) := by
  have hle := hloc.mantissa_le
  have hlt := hloc.lt_mantissa_add_one
  rw [mantissa_ofMantissaAndAccuracy] at hle hlt
  have hscaled := h.scaled hle hlt
  have hfine := h.le_targetExponent
  rw [← targetExponent_eq] at hscaled hfine
  refine ⟨_, _, rfl, ?_⟩
  generalize Format.binary64.targetExponent (totalExponent m e) = t at hscaled hfine ⊢
  obtain ⟨k, hk⟩ : ∃ k, k = (t - e).toNat := ⟨_, rfl⟩
  have hsum : e + k = t := by omega
  have hdiv : v / 2 ^ t = v / 2 ^ e / 2 ^ k := by
    rw [div_div, ← zpow_natCast, ← zpow_add₀ (by decide), hsum]
  rw [← hk, hsum]
  exact ⟨hscaled, hdiv ▸ hloc.repeat_shiftRightOne k⟩

/-- The second shift keeps what has no more digits than floats have. -/
theorem shiftToTargetExponent_kept (hn : n < 2 ^ 53) (ht : -1074 ≤ t) :
    shiftToTargetExponent .binary64 n t .exact = (⟨n, false, false⟩, t) := by
  have hlog : n.log2 < 53 := by
    rcases Nat.eq_zero_or_pos n with rfl | hpos
    · decide
    · exact (Nat.log2_lt hpos.ne').2 hn
  have hshift : (max (n.log2 + t - 52) (-1074) - t).toNat = 0 := by omega
  rw [shiftToTargetExponent, targetExponent_eq, shiftToExponent, hshift, Int.natCast_zero,
    Int.add_zero]
  rfl

theorem shiftToTargetExponent_carried (ht : -1074 ≤ t) :
    shiftToTargetExponent .binary64 (2 ^ 53) t .exact = (⟨2 ^ 52, false, false⟩, t + 1) := by
  have htarget : max ((53 : ℕ) + t - 52) (-1074) = t + 1 := by omega
  have hshift := shiftToExponent_exact (2 ^ 52) 1 (t + 1)
  rw [Nat.cast_one, add_sub_cancel_right] at hshift
  rw [shiftToTargetExponent, targetExponent_eq, Nat.log2_two_pow, htarget]
  exact hshift

/-- What is left of a mantissa after both shifts. -/
theorem carried_roundWithAccuracy
    (hshift : shiftToTargetExponent .binary64 m e accuracy = (em, t)) (ht : -1074 ≤ t)
    (hn : em.roundedMantissa ≤ 2 ^ 53) :
    Carried sign em.roundedMantissa t (roundWithAccuracy .binary64 sign m e accuracy) := by
  rw [roundWithAccuracy, hshift]
  dsimp only
  generalize em.roundedMantissa = n at hn ⊢
  rcases hn.lt_or_eq with hlt | rfl
  · rw [shiftToTargetExponent_kept hlt ht]
    dsimp only
    by_cases hzero : n = 0
    · rw [dif_pos hzero]
      exact .zero hzero
    · rw [dif_neg hzero]
      exact .kept _ hlt
  · rw [shiftToTargetExponent_carried ht]
    exact .carried rfl

/-- **A mantissa with residue bits** is rounded as the number that it is cut off from. -/
theorem rounds_roundWithAccuracy (h : Fine m e)
    (hloc : Locates (.ofMantissaAndAccuracy m accuracy) (v / 2 ^ e)) :
    Rounds sign v (.ofModel (.pack (roundWithAccuracy .binary64 sign m e accuracy))) := by
  obtain ⟨em, t, hshift, hv, hem⟩ := h.exists_shift hloc
  have hn := hem.isRounded
  exact (carried_roundWithAccuracy hshift hv.least (hv.le_of_isRounded hn)).rounds hv hn

theorem rounds_exact (h : Fine m e) (sign : Sign) :
    Rounds sign (m * 2 ^ e) (.ofModel (.pack (roundWithAccuracy .binary64 sign m e .exact))) := by
  refine rounds_roundWithAccuracy h ?_
  rw [mul_div_cancel_right₀ _ (two_zpow_pos e).ne']
  exact locates_exact m

/-! ## Quotients -/

theorem div_eq_quotient_add (m : ℕ) {n : ℕ} (hn : 0 < n) :
    (m : ℚ) / n = (m / n : ℕ) + (m % n : ℕ) / n := by
  have hne : (n : ℚ) ≠ 0 := Nat.cast_ne_zero.2 hn.ne'
  rw [div_eq_iff hne, add_mul, div_mul_cancel₀ _ hne, mul_comm]
  exact_mod_cast (Nat.div_add_mod m n).symm

/-- The accuracy of a division tells the residue bits of the quotient. -/
theorem locates_fraction (m : ℕ) {n : ℕ} (hn : 0 < n) :
    Locates (.ofMantissaAndAccuracy (m / n) (accuracyOfFraction (m % n) n)) (m / n) := by
  have hpos : (0 : ℚ) < n := Nat.cast_pos.2 hn
  have hlt : m % n < n := Nat.mod_lt m hn
  rw [div_eq_quotient_add m hn, accuracyOfFraction]
  generalize m / n = k
  generalize m % n = r at hlt ⊢
  by_cases hzero : r = 0
  · rw [if_pos hzero, hzero, Nat.cast_zero, zero_div, add_zero]
    exact locates_exact k
  rw [if_neg hzero]
  have hr : (0 : ℚ) < r / n := div_pos (Nat.cast_pos.2 (Nat.pos_of_ne_zero hzero)) hpos
  have hone : (r : ℚ) / n < 1 := (div_lt_one hpos).2 (Nat.cast_lt.2 hlt)
  rcases lt_trichotomy (2 * r) n with hless | heq | hmore
  · have hless' : (2 : ℚ) * r < n := by exact_mod_cast hless
    have hhalf : (r : ℚ) / n < 1 / 2 := by
      rw [div_lt_div_iff₀ hpos (by decide)]
      linarith
    rw [Nat.compare_eq_lt.2 hless]
    exact locates_below (by linarith) (by linarith)
  · have hhalf : (r : ℚ) / n = 1 / 2 := by
      rw [div_eq_div_iff hpos.ne' (by decide), one_mul, mul_comm]
      exact_mod_cast heq
    rw [Nat.compare_eq_eq.2 heq, hhalf]
    exact locates_half k
  · have hmore' : (n : ℚ) < 2 * r := by exact_mod_cast hmore
    have hhalf : 1 / 2 < (r : ℚ) / n := by
      rw [div_lt_div_iff₀ (by decide) hpos]
      linarith
    rw [Nat.compare_eq_gt.2 hmore]
    exact locates_above (by linarith) (by linarith)

/-- The dividend is shifted so far that the quotient has enough digits. -/
theorem fine_div {m₁ m₂ s : ℕ} (h₁ : 0 < m₁) (h₂ : 0 < m₂)
    (h : m₂.log2 + 53 ≤ m₁.log2 + s ∨ t ≤ -1074) : Fine (m₁ * 2 ^ s / m₂) t := by
  refine h.imp_left fun hlog => ?_
  have hle : 2 ^ 52 * m₂ ≤ m₁ * 2 ^ s :=
    calc 2 ^ 52 * m₂ ≤ 2 ^ 52 * 2 ^ (m₂.log2 + 1) := Nat.mul_le_mul_left _ Nat.lt_log2_self.le
      _ = 2 ^ (m₂.log2 + 53) := by rw [← pow_add, add_comm, add_assoc]
      _ ≤ 2 ^ (m₁.log2 + s) := Nat.pow_le_pow_right (by decide) hlog
      _ = 2 ^ m₁.log2 * 2 ^ s := pow_add 2 _ _
      _ ≤ m₁ * 2 ^ s := Nat.mul_le_mul_right _ (Nat.log2_self_le h₁.ne')
  have hquotient : 2 ^ 52 ≤ m₁ * 2 ^ s / m₂ := (Nat.le_div_iff_mul_le h₂).2 hle
  exact (Nat.le_log2 (by omega)).2 hquotient

/-- **A quotient** is rounded once. -/
theorem rounds_divCore {m₁ m₂ : ℕ} (h₁ : 0 < m₁) (h₂ : 0 < m₂) (e₁ e₂ : ℤ) (sign : Sign) :
    Rounds sign (m₁ * 2 ^ e₁ / (m₂ * 2 ^ e₂)) (.ofModel (.pack
      (let (m, e, accuracy) := divCore .binary64 m₁ e₁ m₂ e₂
      roundWithAccuracy .binary64 sign m e accuracy))) := by
  rw [divCore]
  dsimp only
  obtain ⟨target, htarget⟩ : ∃ target, target = min (e₁ - e₂) (Format.binary64.targetExponent
    (totalExponent m₁ e₁ - totalExponent m₂ e₂)) := ⟨_, rfl⟩
  obtain ⟨s, hs⟩ : ∃ s, s = (e₁ - e₂ - target).toNat := ⟨_, rfl⟩
  have hsum : e₁ = e₂ + s + target := by omega
  rw [← htarget, ← hs, Nat.shiftLeft_eq]
  refine rounds_roundWithAccuracy (fine_div h₁ h₂ ?_) ?_
  · have hbits : Format.binary64.mantissaBits = 53 := rfl
    have hmin : Format.binary64.minExponent = -1074 := rfl
    rw [Format.targetExponent, totalExponent, totalExponent, hbits, hmin] at htarget
    omega
  · have hm₂ : (m₂ : ℚ) ≠ 0 := Nat.cast_ne_zero.2 h₂.ne'
    have he₂ := (two_zpow_pos e₂).ne'
    have ht := (two_zpow_pos target).ne'
    have hquotient : m₁ * 2 ^ e₁ / (m₂ * 2 ^ e₂) / 2 ^ target = (m₁ * 2 ^ s : ℕ) / (m₂ : ℚ) := by
      rw [hsum, zpow_add₀ (by decide), zpow_add₀ (by decide), zpow_natCast, div_div,
        div_eq_div_iff (mul_ne_zero (mul_ne_zero hm₂ he₂) ht) hm₂]
      push_cast
      ring
    rw [hquotient]
    exact locates_fraction _ h₂

/-! ## Normalization -/

/-- **A mantissa with an exponent** is rounded once. -/
theorem rounds_round (hm : 0 < m) (e : ℤ) (sign : Sign) :
    Rounds sign (m * 2 ^ e) (.ofModel (.pack (.round .binary64 sign m e))) := by
  rw [UnpackedFloat.round, decreaseExponent, targetExponent_eq]
  dsimp only
  obtain ⟨s, hs⟩ : ∃ s, s = (e - max (m.log2 + e - 52) (-1074)).toNat := ⟨_, rfl⟩
  rw [← hs, Nat.shiftLeft_eq]
  have hfine : Fine (m * 2 ^ s) (e - s) := by
    rw [Fine, log2_mul_two_pow hm]
    omega
  have hvalue : (m : ℚ) * 2 ^ e = (m * 2 ^ s : ℕ) * 2 ^ (e - s) := by
    have hsub : (e - (e - s)).toNat = s := by omega
    have hle : e - s ≤ e := by omega
    rw [mul_two_zpow m hle, hsub]
  rw [hvalue]
  exact rounds_exact hfine sign

end ReversePolish.Number

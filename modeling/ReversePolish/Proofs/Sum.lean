/-
  Sums of floats.

  * `Number.exists_canonical`: integers below `2^53` are values of floats, at any
    exponent of floats;
  * `Number.toRat_round`: they are rounded to these values;
  * `Number.nearest_add`: the sum of finite floats is rounded once.
-/
import ReversePolish.Proofs.Residues

namespace ReversePolish.Number

open Float.Model (UnpackedFloat)
open Float.Model.UnpackedFloat (Sign)

variable {x y : Float} {sign : Sign} {m : ℕ} {e t : ℤ} {q : ℚ}

/-! ## Values of floats -/

/-- A value that some float has is not rounded. -/
theorem Nearest.toRat_eq_of_isFinite (h : Nearest q x) (hy : y.isFinite = true)
    (hq : toRat y = q) : toRat x = q := by
  subst hq
  exact h.toRat_eq (nearest_toRat hy)

theorem Canonical.lt_limit (h : Canonical m e) : (m : ℚ) * 2 ^ e < limit := by
  have hm : (m : ℚ) + 1 ≤ 2 ^ 53 := by
    exact_mod_cast Nat.succ_le_of_lt h.lt
  have hhalf : (m : ℚ) < 2 ^ 53 - 1 / 2 := by linarith
  have he : (2 : ℚ) ^ e ≤ 2 ^ (971 : ℤ) := zpow_le_zpow_right₀ (by decide) h.ge
  calc (m : ℚ) * 2 ^ e ≤ m * 2 ^ (971 : ℤ) := mul_le_mul_of_nonneg_left he (Nat.cast_nonneg m)
    _ < (2 ^ 53 - 1 / 2) * 2 ^ (971 : ℤ) := mul_lt_mul_of_pos_right hhalf (two_zpow_pos _)
    _ = limit := limit_eq.symm

/-- The float with the digits and the exponent of a canonical form. -/
theorem Canonical.exists_float (h : Canonical m e) (sign : Sign) :
    ∃ x : Float, x.isFinite = true ∧ toRat x = signed sign (m * 2 ^ e) := by
  have hunpack := unpack_ofModel_pack h sign
  refine ⟨_, ?_, toRat_of_finite hunpack⟩
  rw [isFinite_eq, hunpack]
  rfl

/-- Zeros are appended to the digits until there are `53` or the exponent is the
    least. -/
theorem exists_canonical (hm : 0 < m) (hlt : m < 2 ^ 53) (hle : -1074 ≤ e) (hge : e ≤ 971) :
    ∃ m' e', Canonical m' e' ∧ (m' : ℚ) * 2 ^ e' = m * 2 ^ e := by
  have hlog : m.log2 < 53 := (Nat.log2_lt hm.ne').2 hlt
  obtain ⟨s, hs⟩ : ∃ s, s = min (52 - m.log2) (e + 1074).toNat := ⟨_, rfl⟩
  have hpos : 0 < m * 2 ^ s := Nat.mul_pos hm (Nat.two_pow_pos s)
  have hlog' : (m * 2 ^ s).log2 = m.log2 + s := log2_mul_two_pow hm s
  have hlt' : m * 2 ^ s < 2 ^ 53 := (Nat.log2_lt hpos.ne').1 (by omega)
  refine ⟨m * 2 ^ s, e - s, ⟨hpos, hlt', by omega, by omega, ?_⟩, ?_⟩
  · rcases le_total (52 - m.log2) (e + 1074).toNat with h | h
    · exact Or.inl ((Nat.le_log2 hpos.ne').1 (by omega))
    · exact Or.inr (by omega)
  · have hsub : (e - (e - s)).toNat = s := by omega
    have hle' : e - s ≤ e := by omega
    rw [mul_two_zpow m hle', hsub]

/-- What is rounded to an integer below `2^53` is that integer. -/
theorem toRat_round (hm : 0 < m) (hlt : m < 2 ^ 53) (hle : -1074 ≤ e) (hge : e ≤ 971)
    (sign : Sign) {x : Float} (hx : x = .ofModel (.pack (.round .binary64 sign m e))) :
    x.isFinite = true ∧ toRat x = signed sign (m * 2 ^ e) := by
  have hrounds := rounds_round hm e sign
  rw [← hx] at hrounds
  obtain ⟨m', e', hc, hvalue⟩ := exists_canonical hm hlt hle hge
  obtain ⟨y, hy, hy'⟩ := hc.exists_float sign
  rw [hvalue] at hy'
  have hlimit := hc.lt_limit
  rw [hvalue] at hlimit
  have hnearest := hrounds.nearest hlimit
  exact ⟨hnearest.isFinite, hnearest.toRat_eq_of_isFinite hy hy'⟩

/-! ## Sums -/

theorem nearest_zero (sign : Sign) : Nearest 0 (.ofModel (.pack (.zero sign))) := by
  have hrounds := rounds_zero le_rfl (two_zpow_pos _) sign
  have hnearest := hrounds.nearest ((two_zpow_pos _).trans_le le_limit)
  rwa [signed_zero] at hnearest

/-- A positive integer with an exponent is rounded once. -/
theorem rounds_normalize_of_pos {k : ℤ} (hk : 0 < k) (e : ℤ) (zeroSign : Sign) :
    Rounds .positive (k * 2 ^ e) (.ofModel (.pack (.normalize .binary64 k e zeroSign))) := by
  obtain ⟨n, rfl⟩ : ∃ n : ℕ, k = n := ⟨k.natAbs, by omega⟩
  rw [UnpackedFloat.normalize, Int.compare_eq_gt.2 hk, Int.cast_natCast]
  exact rounds_round (Int.natCast_pos.1 hk) e .positive

/-- An integer with an exponent is rounded once. -/
theorem nearest_normalize (k : ℤ) (e : ℤ) (zeroSign : Sign) (h : |(k : ℚ) * 2 ^ e| < limit) :
    Nearest (k * 2 ^ e) (.ofModel (.pack (.normalize .binary64 k e zeroSign))) := by
  rcases lt_trichotomy k 0 with hk | rfl | hk
  · obtain ⟨n, rfl⟩ : ∃ n : ℕ, k = -n := ⟨k.natAbs, by omega⟩
    have hn : 0 < n := by omega
    have htoNat : (- -(n : ℤ)).toNat = n := by omega
    rw [abs_mul, abs_of_pos (two_zpow_pos e), Int.cast_neg, abs_neg, Int.cast_natCast,
      Nat.abs_cast] at h
    rw [UnpackedFloat.normalize, Int.compare_eq_lt.2 hk]
    dsimp only
    rw [htoNat, Int.cast_neg, Int.cast_natCast, neg_mul]
    exact (rounds_round hn e .negative).nearest h
  · rw [UnpackedFloat.normalize, Int.cast_zero, zero_mul, Int.compare_eq_eq.2 rfl]
    exact nearest_zero zeroSign
  · exact (rounds_normalize_of_pos hk e zeroSign).nearest ((le_abs_self _).trans_lt h)

/-- A value at a smaller exponent. -/
theorem signed_mul_two_zpow (sign : Sign) (m : ℕ) (h : t ≤ e) :
    signed sign (m * 2 ^ e) = (sign.apply (m <<< (e - t).toNat : ℕ) : ℤ) * 2 ^ t := by
  rw [mul_two_zpow m h, Nat.shiftLeft_eq]
  cases sign
  · rw [signed, Sign.apply, Int.cast_neg, Int.cast_natCast, neg_mul]
  · rw [signed, Sign.apply, Int.cast_natCast]

theorem add_eq (x y : Float) :
    x + y = .ofModel (.pack (.add .binary64 x.toModel.unpack y.toModel.unpack)) :=
  rfl

/-- The sum of floats other than zeros is one of integers at the smaller exponent. -/
theorem exists_add_eq {sign' : Sign} {m' : ℕ} {e' : ℤ} {hm : 0 < m} {hm' : 0 < m'}
    (hux : x.toModel.unpack = .finite sign m e hm)
    (huy : y.toModel.unpack = .finite sign' m' e' hm') :
    ∃ (k : ℤ) (t : ℤ), toRat x + toRat y = k * 2 ^ t ∧
      x + y = .ofModel (.pack (.normalize .binary64 k t .positive)) := by
  refine ⟨sign.apply (m <<< (e - min e e').toNat : ℕ) +
    sign'.apply (m' <<< (e' - min e e').toNat : ℕ), min e e', ?_, ?_⟩
  · rw [toRat_of_finite hux, toRat_of_finite huy, Int.cast_add, add_mul,
      signed_mul_two_zpow sign m (min_le_left e e'),
      signed_mul_two_zpow sign' m' (min_le_right e e')]
  · rw [add_eq, hux, huy]
    rfl

/-- **The sum of finite floats** is rounded once. -/
theorem nearest_add (hx : x.isFinite = true) (hy : y.isFinite = true)
    (hlimit : |toRat x + toRat y| < limit) : Nearest (toRat x + toRat y) (x + y) := by
  rcases unpacks_of_isFinite hx with ⟨sign, hux⟩ | ⟨sign, m, e, hc, hux⟩
  · rcases unpacks_of_isFinite hy with ⟨sign', huy⟩ | ⟨sign', m', e', hc', huy⟩
    · rw [toRat_of_zero hux, toRat_of_zero huy, add_zero, add_eq, hux, huy]
      cases sign <;> cases sign' <;> exact nearest_zero _
    · have hsum : x + y = .ofModel (.pack y.toModel.unpack) := by
        rw [add_eq, hux, huy]
        rfl
      rw [toRat_of_zero hux, zero_add, hsum, pack_unpack]
      exact nearest_toRat hy
  · rcases unpacks_of_isFinite hy with ⟨sign', huy⟩ | ⟨sign', m', e', hc', huy⟩
    · have hsum : x + y = .ofModel (.pack x.toModel.unpack) := by
        rw [add_eq, hux, huy]
        rfl
      rw [toRat_of_zero huy, add_zero, hsum, pack_unpack]
      exact nearest_toRat hx
    · obtain ⟨k, t, hvalue, hsum⟩ := exists_add_eq hux huy
      rw [hvalue] at hlimit ⊢
      rw [hsum]
      exact nearest_normalize k t .positive hlimit

end ReversePolish.Number

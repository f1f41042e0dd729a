/-
  Products and quotients of floats.

  * `Number.rounds_mul` and `Number.rounds_div`: those of finite floats are rounded
    once, whatever the exponents of the factors are;
  * `Number.rounds_mul_of_pos` and `Number.rounds_div_of_pos`: the same without signs;
  * `Number.infinity_mul` and `Number.infinity_div`: infinity stays infinite.
-/
import ReversePolish.Proofs.Residues

namespace ReversePolish.Number

open Float.Model (UnpackedFloat)
open Float.Model.UnpackedFloat (Sign divCore roundWithAccuracy)

variable {x y : Float} {m m' : ℕ} {e e' : ℤ}

/-! ## Products -/

theorem mul_eq (x y : Float) :
    x * y = .ofModel (.pack (.mul .binary64 x.toModel.unpack y.toModel.unpack)) :=
  rfl

/-- The product of the digits of two floats has enough digits for rounding: only those
    with the least exponent have less than `53`. -/
theorem Canonical.fine_mul (h : Canonical m e) (h' : Canonical m' e') :
    Fine (m * m') (e + e') := by
  have hpos : m * m' ≠ 0 := (Nat.mul_pos h.pos h'.pos).ne'
  rcases h.full with hfull | he
  · have hle : 2 ^ 52 ≤ m * m' := hfull.trans (Nat.le_mul_of_pos_right m h'.pos)
    exact Or.inl ((Nat.le_log2 hpos).2 hle)
  · rcases h'.full with hfull' | he'
    · have hle : 2 ^ 52 ≤ m * m' := hfull'.trans (Nat.le_mul_of_pos_left m' h.pos)
      exact Or.inl ((Nat.le_log2 hpos).2 hle)
    · exact Or.inr (by omega)

/-- **The product of finite floats** is rounded once. -/
theorem rounds_mul (hx : x.isFinite = true) (hy : y.isFinite = true) :
    Rounds (signOf x * signOf y) (|toRat x| * |toRat y|) (x * y) := by
  rcases unpacks_of_isFinite hx with ⟨sign, hux⟩ | ⟨sign, m, e, hc, hux⟩
  · have hproduct : x * y = .ofModel (.pack (.zero (signOf x * signOf y))) := by
      rcases unpacks_of_isFinite hy with ⟨sign', huy⟩ | ⟨sign', m', e', hc', huy⟩ <;>
      · rw [mul_eq, signOf, signOf, hux, huy]
        rfl
    rw [toRat_of_zero hux, abs_zero, zero_mul, hproduct]
    exact rounds_zero le_rfl (two_zpow_pos _) _
  · rcases unpacks_of_isFinite hy with ⟨sign', huy⟩ | ⟨sign', m', e', hc', huy⟩
    · have hproduct : x * y = .ofModel (.pack (.zero (signOf x * signOf y))) := by
        rw [mul_eq, signOf, signOf, hux, huy]
        rfl
      rw [toRat_of_zero huy, abs_zero, mul_zero, hproduct]
      exact rounds_zero le_rfl (two_zpow_pos _) _
    · have hvalue : |toRat x| * |toRat y| = (m * m' : ℕ) * 2 ^ (e + e') := by
        rw [toRat_of_finite hux, toRat_of_finite huy, abs_signed, abs_signed,
          abs_of_pos hc.value_pos, abs_of_pos hc'.value_pos, zpow_add₀ (by decide)]
        push_cast
        ring
      rw [hvalue, mul_eq, signOf, signOf, hux, huy]
      exact rounds_exact (hc.fine_mul hc') (sign * sign')

/-! ## Quotients -/

theorem div_eq (x y : Float) :
    x / y = .ofModel (.pack (.div .binary64 x.toModel.unpack y.toModel.unpack)) :=
  rfl

/-- **The quotient of finite floats** is rounded once. -/
theorem rounds_div (hx : x.isFinite = true) (hy : y.isFinite = true) (hne : toRat y ≠ 0) :
    Rounds (signOf x / signOf y) (|toRat x| / |toRat y|) (x / y) := by
  rcases unpacks_of_isFinite hy with ⟨sign', huy⟩ | ⟨sign', m', e', hc', huy⟩
  · exact absurd (toRat_of_zero huy) hne
  rcases unpacks_of_isFinite hx with ⟨sign, hux⟩ | ⟨sign, m, e, hc, hux⟩
  · have hquotient : x / y = .ofModel (.pack (.zero (signOf x / signOf y))) := by
      rw [div_eq, signOf, signOf, hux, huy]
      rfl
    rw [toRat_of_zero hux, abs_zero, zero_div, hquotient]
    exact rounds_zero le_rfl (two_zpow_pos _) _
  · have hvalue : |toRat x| / |toRat y| = m * 2 ^ e / (m' * 2 ^ e') := by
      rw [toRat_of_finite hux, toRat_of_finite huy, abs_signed, abs_signed,
        abs_of_pos hc.value_pos, abs_of_pos hc'.value_pos]
    rw [hvalue, div_eq, signOf, signOf, hux, huy]
    exact rounds_divCore hc.pos hc'.pos e e' (sign / sign')

/-! ## Positive floats -/

/-- What a positive float unpacks to. -/
theorem exists_unpack_of_pos (hx : x.isFinite = true) (hpos : 0 < toRat x) :
    ∃ m e, ∃ hm : 0 < m, x.toModel.unpack = .finite .positive m e hm := by
  rcases unpacks_of_isFinite hx with ⟨sign, hux⟩ | ⟨sign, m, e, hc, hux⟩
  · exact absurd (toRat_of_zero hux) hpos.ne'
  · cases sign
    · have hneg : toRat x < 0 := by
        rw [toRat_of_finite hux]
        exact neg_neg_iff_pos.2 hc.value_pos
      exact absurd hneg hpos.not_gt
    · exact ⟨m, e, hc.pos, hux⟩

theorem signOf_of_pos (hx : x.isFinite = true) (hpos : 0 < toRat x) : signOf x = .positive := by
  obtain ⟨m, e, hm, hux⟩ := exists_unpack_of_pos hx hpos
  rw [signOf, hux]
  rfl

theorem rounds_mul_of_pos (hx : x.isFinite = true) (hxpos : 0 < toRat x)
    (hy : y.isFinite = true) (hypos : 0 < toRat y) :
    Rounds .positive (toRat x * toRat y) (x * y) := by
  have hrounds := rounds_mul hx hy
  rw [signOf_of_pos hx hxpos, signOf_of_pos hy hypos, abs_of_pos hxpos, abs_of_pos hypos]
    at hrounds
  exact hrounds

theorem rounds_div_of_pos (hx : x.isFinite = true) (hxpos : 0 < toRat x)
    (hy : y.isFinite = true) (hypos : 0 < toRat y) :
    Rounds .positive (toRat x / toRat y) (x / y) := by
  have hrounds := rounds_div hx hy hypos.ne'
  rw [signOf_of_pos hx hxpos, signOf_of_pos hy hypos, abs_of_pos hxpos, abs_of_pos hypos]
    at hrounds
  exact hrounds

/-! ## Infinity -/

/-- The positive infinity. -/
def infinity : Float :=
  .ofModel (.pack (.infinity .positive))

theorem unpack_infinity : infinity.toModel.unpack = .infinity .positive :=
  rfl

theorem infinity_mul (hy : y.isFinite = true) (hypos : 0 < toRat y) : infinity * y = infinity := by
  obtain ⟨m, e, hm, huy⟩ := exists_unpack_of_pos hy hypos
  rw [mul_eq, unpack_infinity, huy]
  rfl

theorem infinity_div (hy : y.isFinite = true) (hypos : 0 < toRat y) : infinity / y = infinity := by
  obtain ⟨m, e, hm, huy⟩ := exists_unpack_of_pos hy hypos
  rw [div_eq, unpack_infinity, huy]
  rfl

theorem isInf_of_isFinite (hx : x.isFinite = true) : x.isInf = false := by
  rcases unpacks_of_isFinite hx with ⟨sign, hux⟩ | ⟨sign, m, e, hc, hux⟩ <;>
  · change x.toModel.unpack.isInf = false
    rw [hux]
    rfl

theorem isNaN_of_isFinite (hx : x.isFinite = true) : x.isNaN = false := by
  rcases unpacks_of_isFinite hx with ⟨sign, hux⟩ | ⟨sign, m, e, hc, hux⟩ <;>
  · change x.toModel.unpack.isNaN = false
    rw [hux]
    rfl

end ReversePolish.Number

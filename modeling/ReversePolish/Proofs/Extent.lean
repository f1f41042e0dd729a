/-
  The floats from zero on, with infinity.

  * `Number.NonNegative` are these floats, `Number.extent` their places in the order;
  * `Number.NonNegative.le_iff`: they compare as their places do;
  * `Number.add_eq_infinity`: their sums out of range are infinite;
  * `Number.NonNegative.add_cases`: no sum is below a summand.
-/
import Mathlib.Order.WithBot
import ReversePolish.Proofs.Accuracy
import ReversePolish.Proofs.Product

namespace ReversePolish.Number

variable {x y : Float}

/-! ## Floats from zero on -/

/-- The float is a number from zero on, or infinity. -/
inductive NonNegative (x : Float) : Prop
  | finite : x.isFinite = true → 0 ≤ toRat x → NonNegative x
  | infinite : x = infinity → NonNegative x

theorem NonNegative.isNaN_eq (h : NonNegative x) : x.isNaN = false := by
  cases h with
  | finite hx _ => exact isNaN_of_isFinite hx
  | infinite hx =>
    rw [hx]
    rfl

theorem NonNegative.eq_infinity (h : NonNegative x) (hx : x.isFinite = false) : x = infinity := by
  cases h with
  | finite hfinite _ =>
    rw [hx] at hfinite
    cases hfinite
  | infinite hx => exact hx

/-! ## Order -/

/-- The exact value of a float from zero on, infinity being above all numbers. -/
def extent (x : Float) : WithTop ℚ :=
  if x.isFinite then toRat x else ⊤

theorem extent_of_isFinite (hx : x.isFinite = true) : extent x = toRat x :=
  if_pos hx

theorem extent_infinity : extent infinity = ⊤ :=
  rfl

theorem le_infinity (hx : x.isFinite = true) : x ≤ infinity := by
  rcases unpacks_of_isFinite hx with ⟨sign, hux⟩ | ⟨sign, m, e, hc, hux⟩ <;>
  · rw [le_iff_compare, hux, unpack_infinity]
    cases sign <;> rfl

theorem not_infinity_le (hx : x.isFinite = true) : ¬ infinity ≤ x := by
  rcases unpacks_of_isFinite hx with ⟨sign, hux⟩ | ⟨sign, m, e, hc, hux⟩ <;>
  · rw [le_iff_compare, hux, unpack_infinity]
    cases sign <;> exact Bool.false_ne_true

/-- **Floats from zero on** compare as their extents do. -/
theorem NonNegative.le_iff (hx : NonNegative x) (hy : NonNegative y) :
    x ≤ y ↔ extent x ≤ extent y := by
  cases hx with
  | finite hx _ =>
    rw [extent_of_isFinite hx]
    cases hy with
    | finite hy _ => rw [extent_of_isFinite hy, WithTop.coe_le_coe, Number.le_iff hx hy]
    | infinite hy =>
      subst hy
      exact iff_of_true (le_infinity hx) le_top
  | infinite hx =>
    subst hx
    cases hy with
    | finite hy _ =>
      rw [extent_of_isFinite hy, extent_infinity, top_le_iff]
      exact iff_of_false (not_infinity_le hy) WithTop.coe_ne_top
    | infinite hy =>
      subst hy
      exact iff_of_true (by decide) le_rfl

/-! ## Sums -/

theorem rounds_add_of_pos (hx : x.isFinite = true) (hxpos : 0 < toRat x)
    (hy : y.isFinite = true) (hypos : 0 < toRat y) :
    Rounds .positive (toRat x + toRat y) (x + y) := by
  obtain ⟨m, e, hm, hux⟩ := exists_unpack_of_pos hx hxpos
  obtain ⟨m', e', hm', huy⟩ := exists_unpack_of_pos hy hypos
  obtain ⟨k, t, hvalue, hsum⟩ := exists_add_eq hux huy
  have hpos : 0 < (k : ℚ) * 2 ^ t := hvalue ▸ add_pos hxpos hypos
  have hk : (0 : ℚ) < k := (pos_iff_pos_of_mul_pos hpos).2 (two_zpow_pos t)
  rw [hvalue, hsum]
  exact rounds_normalize_of_pos (Int.cast_pos.1 hk) t .positive

/-- Sums out of range are infinite: none of the summands is zero then. -/
theorem add_eq_infinity (hx : x.isFinite = true) (hy : y.isFinite = true)
    (hlimit : limit ≤ toRat x + toRat y) : x + y = infinity := by
  have hxlt := toRat_lt_limit hx
  have hylt := toRat_lt_limit hy
  exact (rounds_add_of_pos hx (by linarith) hy (by linarith)).infinite hlimit

theorem infinity_add (hy : NonNegative y) : infinity + y = infinity := by
  cases hy with
  | finite hy _ =>
    rcases unpacks_of_isFinite hy with ⟨sign, huy⟩ | ⟨sign, m, e, hc, huy⟩ <;>
    · rw [add_eq, unpack_infinity, huy]
      rfl
  | infinite hy =>
    rw [hy]
    rfl

theorem add_infinity (hx : x.isFinite = true) : x + infinity = infinity := by
  rcases unpacks_of_isFinite hx with ⟨sign, hux⟩ | ⟨sign, m, e, hc, hux⟩ <;>
  · rw [add_eq, unpack_infinity, hux]
    rfl

/-- **The sum of floats from zero on**, rounded as it is, is not below a summand, or is
    infinite. -/
theorem NonNegative.add_cases (hx : NonNegative x) (hy : NonNegative y) :
    (y.isFinite = true ∧ 0 ≤ toRat y ∧ (x + y).isFinite = true ∧ toRat y ≤ toRat (x + y)) ∨
      x + y = infinity := by
  cases hx with
  | infinite hx =>
    rw [hx]
    exact Or.inr (infinity_add hy)
  | finite hx hxnonneg =>
    cases hy with
    | infinite hy =>
      rw [hy]
      exact Or.inr (add_infinity hx)
    | finite hy hynonneg =>
      rcases lt_or_ge (toRat x + toRat y) limit with hlt | hge
      · rw [← abs_of_nonneg (add_nonneg hxnonneg hynonneg)] at hlt
        have hnearest := nearest_add hx hy hlt
        have hle := hnearest.le_toRat hy (le_add_of_nonneg_left hxnonneg)
        exact Or.inl ⟨hy, hynonneg, hnearest.isFinite, hle⟩
      · exact Or.inr (add_eq_infinity hx hy hge)

theorem NonNegative.add (hx : NonNegative x) (hy : NonNegative y) : NonNegative (x + y) := by
  rcases hx.add_cases hy with ⟨-, hynonneg, hsum, hle⟩ | hinfinite
  · exact .finite hsum (hynonneg.trans hle)
  · exact .infinite hinfinite

theorem NonNegative.extent_le_add (hx : NonNegative x) (hy : NonNegative y) :
    extent y ≤ extent (x + y) := by
  rcases hx.add_cases hy with ⟨hy, -, hsum, hle⟩ | hinfinite
  · rw [extent_of_isFinite hy, extent_of_isFinite hsum, WithTop.coe_le_coe]
    exact hle
  · rw [hinfinite]
    exact le_top

end ReversePolish.Number

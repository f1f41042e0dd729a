/-
  The exact values of floats.

  * `Number.toRat` is the rational number that a finite float is, `Number.signOf`
    its sign, which zeros have, too;
  * `Number.eq_of_toRat_eq`: a finite float is determined by its value and sign;
  * `Number.unpack_ofModel_pack`: packing keeps mantissas and exponents that floats
    have;
  * `Number.lt_iff`, `Number.le_iff` and `Number.beq_iff`: finite floats compare as
    their values do.
-/
import Mathlib.Algebra.Order.Field.Power
import Mathlib.Algebra.Order.Field.Rat
import Mathlib.Order.Compare
import Mathlib.Tactic.Linarith
import Mathlib.Tactic.Positivity
import ReversePolish.Proofs.Packing

namespace ReversePolish.Number

open Float.Model (Format UnpackedFloat)
open Float.Model.UnpackedFloat (Sign)

variable {x y : Float} {sign : Sign} {m m' : ℕ} {e e' : ℤ} {hm : 0 < m} {v w : ℚ}

/-! ## Signs -/

/-- The magnitude with the sign. -/
def signed : Sign → ℚ → ℚ
  | .negative, v => -v
  | .positive, v => v

theorem signed_zero (sign : Sign) : signed sign 0 = 0 := by
  cases sign <;> simp [signed]

theorem abs_signed (sign : Sign) (v : ℚ) : |signed sign v| = |v| := by
  cases sign <;> simp [signed]

theorem signed_sub (sign : Sign) (v w : ℚ) :
    signed sign v - signed sign w = signed sign (v - w) := by
  cases sign <;> simp [signed]; ring

theorem signed_neg (sign : Sign) (v : ℚ) : signed (-sign) v = -signed sign v := by
  cases sign
  · exact (InvolutiveNeg.neg_neg v).symm
  · rfl

theorem signed_signed (sign : Sign) (v : ℚ) : signed sign (signed sign v) = v := by
  cases sign <;> simp [signed]

/-! ## Values -/

/-- The value of an unpacked float; infinities and NaN count as `0`. -/
def unpackedValue : UnpackedFloat → ℚ
  | .finite sign m e _ => signed sign (m * 2 ^ e)
  | .zero _ | .infinity _ | .notANumber => 0

/-- The sign of an unpacked float; NaN counts as positive. -/
def unpackedSign : UnpackedFloat → Sign
  | .finite sign _ _ _ | .zero sign | .infinity sign => sign
  | .notANumber => .positive

/-- The exact value of a finite float. -/
def toRat (x : Float) : ℚ :=
  unpackedValue x.toModel.unpack

/-- The sign of a float. -/
def signOf (x : Float) : Sign :=
  unpackedSign x.toModel.unpack

/-- The digits of a finite float, without its exponent; zeros have `0`. -/
def mantissa (x : Float) : ℕ :=
  match x.toModel.unpack with
  | .finite _ m _ _ => m
  | .zero _ | .infinity _ | .notANumber => 0

/-- What a finite float unpacks to. -/
inductive Unpacks (x : Float) : Prop
  | zero (sign : Sign) : x.toModel.unpack = .zero sign → Unpacks x
  | finite (sign : Sign) (m : ℕ) (e : ℤ) (h : Canonical m e) :
      x.toModel.unpack = .finite sign m e h.pos → Unpacks x

theorem unpacks_of_isFinite (h : x.isFinite = true) : Unpacks x := by
  rcases hx : x.toModel.unpack with sign | - | sign | ⟨sign, m, e, hm⟩
  · rw [isFinite_eq, hx] at h
    cases h
  · rw [isFinite_eq, hx] at h
    cases h
  · exact .zero sign hx
  · exact .finite sign m e (canonical_of_unpack hx) hx

theorem toRat_of_zero (h : x.toModel.unpack = .zero sign) : toRat x = 0 := by
  rw [toRat, h]
  rfl

theorem toRat_of_finite (h : x.toModel.unpack = .finite sign m e hm) :
    toRat x = signed sign (m * 2 ^ e) := by
  rw [toRat, h]
  rfl

/-! ## Mantissas and exponents -/

theorem two_zpow_pos (e : ℤ) : (0 : ℚ) < 2 ^ e :=
  zpow_pos (by decide) e

/-- Digits may be followed by zeros, with a smaller exponent. -/
theorem mul_two_zpow (m : ℕ) (h : e ≤ e') :
    (m : ℚ) * 2 ^ e' = (m * 2 ^ (e' - e).toNat : ℕ) * 2 ^ e := by
  have hsum : ((e' - e).toNat : ℤ) + e = e' := by omega
  rw [Nat.cast_mul, Nat.cast_pow, Nat.cast_ofNat, mul_assoc, ← zpow_natCast,
    ← zpow_add₀ (by decide), hsum]

/-- A greater exponent means a greater value. -/
theorem Canonical.lt_of_lt (h : Canonical m e) (h' : Canonical m' e') (hlt : e < e') :
    (m : ℚ) * 2 ^ e < m' * 2 ^ e' := by
  have hfull : 2 ^ 52 ≤ m' := h'.full.resolve_right (by have := h.le; omega)
  have htwo : 2 ^ 1 ≤ 2 ^ (e' - e).toNat := Nat.pow_le_pow_right (by decide) (by omega)
  have hlt' : m < m' * 2 ^ (e' - e).toNat :=
    calc m < 2 ^ 53 := h.lt
      _ = 2 ^ 52 * 2 ^ 1 := by decide
      _ ≤ m' * 2 ^ (e' - e).toNat := Nat.mul_le_mul hfull htwo
  rw [mul_two_zpow m' hlt.le]
  exact mul_lt_mul_of_pos_right (Nat.cast_lt.2 hlt') (two_zpow_pos e)

/-- Different mantissas and exponents mean different values. -/
theorem Canonical.eq_of_eq (h : Canonical m e) (h' : Canonical m' e')
    (heq : (m : ℚ) * 2 ^ e = m' * 2 ^ e') : m = m' ∧ e = e' := by
  rcases lt_trichotomy e e' with hlt | rfl | hlt
  · exact absurd heq (h.lt_of_lt h' hlt).ne
  · exact ⟨Nat.cast_injective (mul_right_cancel₀ (two_zpow_pos e).ne' heq), rfl⟩
  · exact absurd heq (h'.lt_of_lt h hlt).ne'

theorem Canonical.value_pos (h : Canonical m e) : (0 : ℚ) < m * 2 ^ e :=
  mul_pos (Nat.cast_pos.2 h.pos) (two_zpow_pos e)

theorem toRat_eq_zero_iff (h : x.isFinite = true) :
    toRat x = 0 ↔ ∃ sign, x.toModel.unpack = .zero sign := by
  constructor
  · intro hzero
    rcases unpacks_of_isFinite h with ⟨sign, hx⟩ | ⟨sign, m, e, hc, hx⟩
    · exact ⟨sign, hx⟩
    · have habs := abs_signed sign ((m : ℚ) * 2 ^ e)
      rw [← toRat_of_finite hx, hzero, abs_zero, abs_of_pos hc.value_pos] at habs
      exact absurd habs hc.value_pos.ne
  · rintro ⟨sign, hx⟩
    exact toRat_of_zero hx

/-- **A finite float** is determined by its value and its sign. -/
theorem eq_of_toRat_eq (hx : x.isFinite = true) (hy : y.isFinite = true)
    (h : toRat x = toRat y) (hsign : signOf x = signOf y) : x = y := by
  have hunpack : x.toModel.unpack = y.toModel.unpack := by
    rcases unpacks_of_isFinite hx with ⟨sign, hux⟩ | ⟨sign, m, e, hc, hux⟩
    · obtain ⟨sign', huy⟩ := (toRat_eq_zero_iff hy).1 (h.symm.trans (toRat_of_zero hux))
      rw [signOf, signOf, hux, huy] at hsign
      rw [hux, huy]
      exact congrArg UnpackedFloat.zero hsign
    · rcases unpacks_of_isFinite hy with ⟨sign', huy⟩ | ⟨sign', m', e', hc', huy⟩
      · obtain ⟨sign', hux'⟩ := (toRat_eq_zero_iff hx).1 (h.trans (toRat_of_zero huy))
        rw [hux] at hux'
        cases hux'
      · rw [signOf, signOf, hux, huy] at hsign
        obtain rfl : sign = sign' := hsign
        rw [toRat_of_finite hux, toRat_of_finite huy] at h
        have hvalue := congrArg (signed sign) h
        rw [signed_signed, signed_signed] at hvalue
        obtain ⟨rfl, rfl⟩ := hc.eq_of_eq hc' hvalue
        rw [hux, huy]
  exact eq_of_unpack_eq hunpack

/-! ## Negation -/

theorem toRat_neg (h : x.isFinite = true) : toRat (-x) = -toRat x := by
  rw [toRat, unpack_neg h, toRat]
  rcases unpacks_of_isFinite h with ⟨sign, hx⟩ | ⟨sign, m, e, hc, hx⟩
  · rw [hx]
    exact neg_zero.symm
  · rw [hx]
    cases sign
    · exact (InvolutiveNeg.neg_neg _).symm
    · rfl

theorem mantissa_neg (h : x.isFinite = true) : mantissa (-x) = mantissa x := by
  rw [mantissa, unpack_neg h, mantissa]
  rcases unpacks_of_isFinite h with ⟨sign, hx⟩ | ⟨sign, m, e, hc, hx⟩ <;> rw [hx] <;> rfl

theorem signOf_neg (h : x.isFinite = true) : signOf (-x) = -signOf x := by
  rw [signOf, unpack_neg h, signOf]
  rcases unpacks_of_isFinite h with ⟨sign, hx⟩ | ⟨sign, m, e, hc, hx⟩ <;> rw [hx] <;> rfl

/-! ## Packing -/

theorem exists_toNat_eq {w n : ℕ} (h : n < 2 ^ w) : ∃ b : BitVec w, b.toNat = n :=
  ⟨.ofNat w n, by rw [BitVec.toNat_ofNat, Nat.mod_eq_of_lt h]⟩

/-- Every mantissa with an exponent of floats has fields. -/
theorem Canonical.exists_standsFor (h : Canonical m e) (sign : Sign) :
    ∃ exponent mantissa, StandsFor sign exponent mantissa (.finite sign m e h.pos) := by
  have hlt := h.lt
  have hle := h.le
  have hge := h.ge
  by_cases hfull : 2 ^ 52 ≤ m
  · obtain ⟨mantissa, hmantissa⟩ := @exists_toNat_eq 52 (m - 2 ^ 52) (by omega)
    obtain ⟨exponent, hexponent⟩ := @exists_toNat_eq 11 (e + 1075).toNat (by omega)
    have hpos : 0 < 2 ^ 52 + mantissa.toNat := Nat.add_pos_left (by decide) _
    have heq : UnpackedFloat.finite sign m e h.pos =
        .finite sign (2 ^ 52 + mantissa.toNat) (exponent.toNat - 1075) hpos :=
      finite_congr (by omega) (by omega)
    exact ⟨exponent, mantissa, heq ▸ .normal hpos (by omega) (by omega)⟩
  · obtain ⟨mantissa, hmantissa⟩ := @exists_toNat_eq 52 m (by omega)
    have hpos : 0 < mantissa.toNat := hmantissa ▸ h.pos
    have heq : UnpackedFloat.finite sign m e h.pos =
        .finite sign mantissa.toNat (-1074) hpos :=
      finite_congr hmantissa.symm (h.full.resolve_left hfull)
    exact ⟨0#11, mantissa, heq ▸ .subnormal hpos⟩

/-- **Packing** keeps a mantissa and an exponent of floats. -/
theorem unpack_ofModel_pack (h : Canonical m e) (sign : Sign) :
    (Float.ofModel (.pack (.finite sign m e h.pos))).toModel.unpack =
      .finite sign m e h.pos := by
  obtain ⟨exponent, mantissa, hfields⟩ := h.exists_standsFor sign
  have hunpack := @unpack_pack sign exponent mantissa
  rw [← hfields.eq_ofFields] at hunpack
  exact hunpack rfl

/-- Exponents that are too great are packed as infinities. -/
theorem ofModel_pack_of_lt (hm : 0 < m) (h : 971 < e) (sign : Sign) :
    Float.ofModel (.pack (.finite sign m e hm)) = .ofModel (.pack (.infinity sign)) := by
  have hpacked : UnpackedFloat.pack .binary64 (.finite sign m e hm) =
      UnpackedFloat.packedInfinity .binary64 sign := by
    delta UnpackedFloat.pack
    dsimp only
    rw [biasedExponent, if_pos (show 2 ^ 11 ≤ (e + 1075).toNat + 1 by omega)]
  exact eq_of_toBits_eq (congrArg UInt64.ofBitVec hpacked)

/-! ## Comparisons -/

theorem compares_of_canonical (h : Canonical m e) (h' : Canonical m' e') :
    ((compare e e').then (compare m m')).Compares ((m : ℚ) * 2 ^ e) (m' * 2 ^ e') := by
  rcases lt_trichotomy e e' with hlt | rfl | hlt
  · rw [Int.compare_eq_lt.2 hlt]
    exact h.lt_of_lt h' hlt
  · rw [Int.compare_eq_eq.2 rfl]
    rcases lt_trichotomy m m' with hlt | rfl | hlt
    · rw [Nat.compare_eq_lt.2 hlt]
      exact mul_lt_mul_of_pos_right (Nat.cast_lt.2 hlt) (two_zpow_pos e)
    · rw [Nat.compare_eq_eq.2 rfl]
      exact rfl
    · rw [Nat.compare_eq_gt.2 hlt]
      exact mul_lt_mul_of_pos_right (Nat.cast_lt.2 hlt) (two_zpow_pos e)
  · rw [Int.compare_eq_gt.2 hlt]
    exact h'.lt_of_lt h hlt

/-- The order turns around under the sign. -/
theorem compares_neg {o : Ordering} (h : o.Compares v w) : o.swap.Compares (-v) (-w) := by
  cases o
  · exact neg_lt_neg h
  · exact congrArg Neg.neg h
  · exact neg_lt_neg h

/-- Finite floats compare as their values do. -/
theorem exists_compare (hx : x.isFinite = true) (hy : y.isFinite = true) :
    ∃ o, x.toModel.unpack.compare y.toModel.unpack = some o ∧ o.Compares (toRat x) (toRat y) := by
  rcases unpacks_of_isFinite hx with ⟨sign, hux⟩ | ⟨sign, m, e, hc, hux⟩
  · rcases unpacks_of_isFinite hy with ⟨sign', huy⟩ | ⟨sign', m', e', hc', huy⟩
    · rw [toRat_of_zero hux, toRat_of_zero huy, hux, huy]
      exact ⟨.eq, rfl, rfl⟩
    · have hpos := hc'.value_pos
      rw [toRat_of_zero hux, toRat_of_finite huy, hux, huy]
      cases sign'
      · exact ⟨.gt, rfl, neg_neg_iff_pos.2 hpos⟩
      · exact ⟨.lt, rfl, hpos⟩
  · have hpos := hc.value_pos
    rcases unpacks_of_isFinite hy with ⟨sign', huy⟩ | ⟨sign', m', e', hc', huy⟩
    · rw [toRat_of_finite hux, toRat_of_zero huy, hux, huy]
      cases sign
      · exact ⟨.lt, rfl, neg_neg_iff_pos.2 hpos⟩
      · exact ⟨.gt, rfl, hpos⟩
    · have hpos' := hc'.value_pos
      rw [toRat_of_finite hux, toRat_of_finite huy, hux, huy]
      cases sign <;> cases sign'
      · exact ⟨_, rfl, compares_neg (compares_of_canonical hc hc')⟩
      · exact ⟨.lt, rfl, (neg_neg_iff_pos.2 hpos).trans hpos'⟩
      · exact ⟨.gt, rfl, (neg_neg_iff_pos.2 hpos').trans hpos⟩
      · exact ⟨_, rfl, compares_of_canonical hc hc'⟩

theorem lt_iff (hx : x.isFinite = true) (hy : y.isFinite = true) :
    x < y ↔ toRat x < toRat y := by
  obtain ⟨o, hcompare, ho⟩ := exists_compare hx hy
  rw [← ho.eq_lt]
  constructor
  · intro h
    have hlt : x.toModel.unpack.compare y.toModel.unpack = some .lt :=
      eq_of_beq (of_decide_eq_true h)
    rw [hcompare] at hlt
    exact Option.some.inj hlt
  · rintro rfl
    refine decide_eq_true ?_
    show (x.toModel.unpack.compare y.toModel.unpack == some .lt) = true
    rw [hcompare]
    rfl

theorem le_iff_compare (x y : Float) :
    x ≤ y ↔ (x.toModel.unpack.compare y.toModel.unpack).any (·.isLE) = true :=
  ⟨of_decide_eq_true, decide_eq_true⟩

theorem le_iff (hx : x.isFinite = true) (hy : y.isFinite = true) :
    x ≤ y ↔ toRat x ≤ toRat y := by
  obtain ⟨o, hcompare, ho⟩ := exists_compare hx hy
  have hle : x ≤ y ↔ o.isLE = true := by
    rw [le_iff_compare, hcompare]
    rfl
  rw [hle]
  cases o with
  | lt => exact iff_of_true rfl ho.le
  | eq => exact iff_of_true rfl (le_of_eq ho)
  | gt => exact iff_of_false Bool.false_ne_true (not_le.2 ho)

theorem beq_iff (hx : x.isFinite = true) (hy : y.isFinite = true) :
    (x == y) = true ↔ toRat x = toRat y := by
  obtain ⟨o, hcompare, ho⟩ := exists_compare hx hy
  rw [← ho.eq_eq]
  constructor
  · intro h
    have heq : x.toModel.unpack.compare y.toModel.unpack = some .eq := eq_of_beq h
    rw [hcompare] at heq
    exact Option.some.inj heq
  · rintro rfl
    show (x.toModel.unpack.compare y.toModel.unpack == some .eq) = true
    rw [hcompare]
    rfl

end ReversePolish.Number

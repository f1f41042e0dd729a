/-
  Floats as indices.

  * `Number.IsNatural`: the float is a natural number, exactly;
  * `Number.IsNatural.add`, `Number.IsNatural.mul` and `Number.IsNatural.div`: sums,
    products and quotients that are integers up to `2^53`;
  * `Number.isNatural_ofIndex`: indices are converted to floats exactly;
  * `Number.toNat_toUInt64`: conversion to an integer cuts the fraction off;
  * `Number.index?_eq_some_iff`: the floats that are indices are the natural numbers up
    to `2^53`.
-/
import ReversePolish.Number.Index
import ReversePolish.Proofs.Accuracy
import ReversePolish.Proofs.Product

namespace ReversePolish.Number

open Float.Model (UnpackedFloat)
open Float.Model.UnpackedFloat (Sign ExtendedMantissa roundToInt)

variable {x y : Float} {m n : ℕ} {e : ℤ}

/-- The float is this natural number, exactly; either zero is `0`. -/
structure IsNatural (x : Float) (n : ℕ) : Prop where
  isFinite : x.isFinite = true
  toRat_eq : toRat x = n

/-- What is rounded from a natural number up to `2^53` is that number. -/
theorem Nearest.isNatural (hn : n ≤ 2 ^ 53) (h : Nearest n x) : IsNatural x n := by
  obtain ⟨y, hy, hvalue⟩ := exists_float_of_le hn (by decide : (-1074 : ℤ) ≤ 0) (.inl (by decide))
  rw [zpow_zero, mul_one] at hvalue
  exact ⟨h.isFinite, h.toRat_eq_of_isFinite hy hvalue⟩

theorem lt_limit_of_le (hn : n ≤ 2 ^ 53) : (n : ℚ) < limit := by
  have hcast : (n : ℚ) ≤ 2 ^ (53 : ℤ) := by exact_mod_cast hn
  have hlt : (2 : ℚ) ^ (53 : ℤ) < 2 ^ (1023 : ℤ) := zpow_lt_zpow_right₀ (by decide) (by decide)
  exact (hcast.trans_lt hlt).trans_le le_limit

/-! ## Exact arithmetic -/

theorem isNatural_zero : IsNatural 0.0 0 :=
  ⟨rfl, Nat.cast_zero.symm⟩

theorem isNatural_one : IsNatural 1.0 1 :=
  ⟨rfl, toRat_one.trans Nat.cast_one.symm⟩

theorem IsNatural.pos (h : IsNatural x n) (hn : 0 < n) : 0 < toRat x := by
  rw [h.toRat_eq]
  exact_mod_cast hn

/-- Either zero is `0`, but the other natural numbers are one float each. -/
theorem IsNatural.eq (hx : IsNatural x n) (hy : IsNatural y n) (hn : 0 < n) : x = y := by
  refine eq_of_toRat_eq hx.isFinite hy.isFinite (hx.toRat_eq.trans hy.toRat_eq.symm) ?_
  rw [signOf_of_pos hx.isFinite (hx.pos hn), signOf_of_pos hy.isFinite (hy.pos hn)]

theorem IsNatural.add (hx : IsNatural x m) (hy : IsNatural y n) (hle : m + n ≤ 2 ^ 53) :
    IsNatural (x + y) (m + n) := by
  have hvalue : toRat x + toRat y = (m + n : ℕ) := by
    rw [hx.toRat_eq, hy.toRat_eq, Nat.cast_add]
  have hlimit : |toRat x + toRat y| < limit := by
    rw [hvalue, Nat.abs_cast]
    exact lt_limit_of_le hle
  have hnearest := nearest_add hx.isFinite hy.isFinite hlimit
  rw [hvalue] at hnearest
  exact hnearest.isNatural hle

theorem IsNatural.mul (hx : IsNatural x m) (hy : IsNatural y n) (hm : 0 < m) (hn : 0 < n)
    (hle : m * n ≤ 2 ^ 53) : IsNatural (x * y) (m * n) := by
  have hrounds := rounds_mul_of_pos hx.isFinite (hx.pos hm) hy.isFinite (hy.pos hn)
  rw [hx.toRat_eq, hy.toRat_eq, ← Nat.cast_mul] at hrounds
  exact (hrounds.nearest (lt_limit_of_le hle)).isNatural hle

theorem IsNatural.div (hx : IsNatural x (m * n)) (hy : IsNatural y n) (hm : 0 < m) (hn : 0 < n)
    (hle : m ≤ 2 ^ 53) : IsNatural (x / y) m := by
  have hrounds := rounds_div_of_pos hx.isFinite (hx.pos (Nat.mul_pos hm hn)) hy.isFinite
    (hy.pos hn)
  rw [hx.toRat_eq, hy.toRat_eq, Nat.cast_mul,
    mul_div_cancel_right₀ _ (Nat.cast_ne_zero.2 hn.ne')] at hrounds
  exact (hrounds.nearest (lt_limit_of_le hle)).isNatural hle

/-! ## Floats of indices -/

theorem ofIndex_eq (hn : n < 2 ^ 64) :
    ofIndex n = .ofModel (.pack (.normalize .binary64 n 0 .positive)) := by
  have htoNat : n.toUInt64.toNat = n := UInt64.toNat_ofNat_of_lt' hn
  calc ofIndex n = .ofModel (.pack (.normalize .binary64 n.toUInt64.toNat 0 .positive)) := rfl
    _ = .ofModel (.pack (.normalize .binary64 n 0 .positive)) := by rw [htoNat]

/-- **Indices** are converted exactly. -/
theorem isNatural_ofIndex (hn : n ≤ 2 ^ 53) : IsNatural (ofIndex n) n := by
  have hlimit : |((n : ℤ) : ℚ) * 2 ^ (0 : ℤ)| < limit := by
    rw [zpow_zero, mul_one, Int.cast_natCast, Nat.abs_cast]
    exact lt_limit_of_le hn
  have hnearest := nearest_normalize n 0 .positive hlimit
  rw [← ofIndex_eq (hn.trans_lt (by decide)), zpow_zero, mul_one, Int.cast_natCast] at hnearest
  exact hnearest.isNatural hn

/-! ## Integer parts -/

/-- A mantissa without the binary digits after its point. -/
theorem roundToInt_positive (m : ℕ) (e : ℤ) :
    roundToInt .positive m e = (⌊(m : ℚ) * 2 ^ e⌋₊ : ℤ) := by
  obtain ⟨s, hs⟩ : ∃ s, s = (e - 0).toNat := ⟨_, rfl⟩
  obtain ⟨k, hk⟩ : ∃ k, k = (0 - (e - s)).toNat := ⟨_, rfl⟩
  have hround : roundToInt .positive m e =
      (Nat.repeat ExtendedMantissa.shiftRightOne k ⟨m * 2 ^ s, false, false⟩).mantissa := by
    rw [← Nat.shiftLeft_eq, hk, hs]
    rfl
  have hloc := (locates_exact (m * 2 ^ s)).repeat_shiftRightOne k
  have hvalue : (m : ℚ) * 2 ^ e = (m * 2 ^ s : ℕ) / 2 ^ k := by
    have hsum : e = s - k := by omega
    rw [hsum, zpow_sub₀ (by decide), zpow_natCast, zpow_natCast, ← mul_div_assoc]
    push_cast
    rfl
  rw [hround, hvalue, (Nat.floor_eq_iff (div_nonneg (Nat.cast_nonneg _) (by positivity))).2
    ⟨hloc.mantissa_le, hloc.lt_mantissa_add_one⟩]

/-- **Conversion to an integer** cuts the fraction off. -/
theorem toNat_toUInt64 (hx : x.isFinite = true) (hnonneg : 0 ≤ toRat x)
    (hlt : toRat x < 2 ^ 64) : x.toUInt64.toNat = ⌊toRat x⌋₊ := by
  have hint : x.toModel.unpack.toInt 0 (UInt64.size - 1) = (⌊toRat x⌋₊ : ℤ) := by
    rcases hnonneg.eq_or_lt with hzero | hpos
    · obtain ⟨sign, hux⟩ := (toRat_eq_zero_iff hx).1 hzero.symm
      rw [hux, ← hzero, Nat.floor_zero]
      rfl
    · obtain ⟨m, e, hm, hux⟩ := exists_unpack_of_pos hx hpos
      rw [toRat_of_finite hux, hux]
      exact roundToInt_positive m e
  have hfloor : ⌊toRat x⌋₊ < 2 ^ 64 := (Nat.floor_lt hnonneg).2 (by exact_mod_cast hlt)
  have hclamp : x.toUInt64 = .ofNatClamp ⌊toRat x⌋₊ := by
    rw [← Int.toNat_natCast ⌊toRat x⌋₊, ← hint]
    rfl
  rw [hclamp, UInt64.ofNatClamp_eq_ofNat _ hfloor]
  exact UInt64.toNat_ofNat_of_lt' hfloor

/-- Converted back, the integer part is compared with the float. -/
theorem toFloat_toUInt64_beq_iff (hx : x.isFinite = true) (hnonneg : 0 ≤ toRat x)
    (hle : toRat x ≤ 2 ^ 53) :
    (x.toUInt64.toFloat == x) = true ↔ toRat x = (⌊toRat x⌋₊ : ℕ) := by
  have hlt : toRat x < 2 ^ 64 := hle.trans_lt (by norm_num)
  have hfloor : ⌊toRat x⌋₊ ≤ 2 ^ 53 := Nat.floor_le_of_le (by exact_mod_cast hle)
  have hback : x.toUInt64.toFloat = ofIndex ⌊toRat x⌋₊ := by
    rw [← toNat_toUInt64 hx hnonneg hlt, ofIndex]
    exact congrArg UInt64.toFloat (UInt64.ofNat_toNat).symm
  have hnatural := isNatural_ofIndex hfloor
  rw [hback, beq_iff hnatural.isFinite hx, hnatural.toRat_eq, eq_comm]

/-! ## Indices -/

theorem toRat_maxIndex : toRat maxIndex = 2 ^ 53 := by
  have hunpack : maxIndex.toModel.unpack = .finite .positive (2 ^ 52) 1 (by decide) := rfl
  rw [toRat_of_finite hunpack]
  norm_num [signed]

theorem index?_eq (x : Float) :
    index? x = some n ↔
      (((x.isFinite = true ∧ 0.0 ≤ x) ∧ x ≤ maxIndex) ∧ (x.toUInt64.toFloat == x) = true) ∧
        x.toUInt64.toNat = n := by
  rw [index?, Option.ite_none_right_eq_some, Bool.and_eq_true, Bool.and_eq_true, Bool.and_eq_true,
    decide_eq_true_iff, decide_eq_true_iff, Option.some_inj]

/-- **The floats that are indices** are the natural numbers up to `2^53`. -/
theorem index?_eq_some_iff : index? x = some n ↔ IsNatural x n ∧ n ≤ 2 ^ 53 := by
  rw [index?_eq]
  constructor
  · rintro ⟨⟨⟨⟨hx, hzero⟩, hmax⟩, hwhole⟩, rfl⟩
    rw [le_iff rfl hx] at hzero
    rw [le_iff hx rfl, toRat_maxIndex] at hmax
    rw [toFloat_toUInt64_beq_iff hx hzero hmax] at hwhole
    rw [toNat_toUInt64 hx hzero (hmax.trans_lt (by norm_num))]
    exact ⟨⟨hx, hwhole⟩, Nat.floor_le_of_le (by exact_mod_cast hmax)⟩
  · rintro ⟨⟨hx, hvalue⟩, hn⟩
    have hnonneg : 0 ≤ toRat x := hvalue ▸ Nat.cast_nonneg n
    have hmax : toRat x ≤ 2 ^ 53 := by
      rw [hvalue]
      exact_mod_cast hn
    have hfloor : ⌊toRat x⌋₊ = n := by rw [hvalue, Nat.floor_natCast]
    have hwhole := (toFloat_toUInt64_beq_iff hx hnonneg hmax).2 (by rw [hfloor, hvalue])
    refine ⟨⟨⟨⟨hx, (le_iff rfl hx).2 hnonneg⟩, ?_⟩, hwhole⟩, ?_⟩
    · rw [le_iff hx rfl, toRat_maxIndex]
      exact hmax
    · rw [toNat_toUInt64 hx hnonneg (hmax.trans_lt (by norm_num)), hfloor]

theorem index?_ofIndex (hn : n ≤ 2 ^ 53) : index? (ofIndex n) = some n :=
  index?_eq_some_iff.2 ⟨isNatural_ofIndex hn, hn⟩

/-- Other floats are no indices. -/
theorem index?_eq_none_iff : index? x = none ↔ ¬∃ n ≤ 2 ^ 53, IsNatural x n := by
  rw [Option.eq_none_iff_forall_ne_some, not_exists]
  refine forall_congr' fun n => ?_
  rw [Ne, index?_eq_some_iff, and_comm]

/-- The negative zero is the index `0`. -/
example : index? (-0.0) = some 0 := by decide +kernel

end ReversePolish.Number

/-
  Decimals that floats are equal to.

  * `Number.roundWithAccuracy_exact`: nothing is rounded where the digits of a
    float are followed by zeros only;
  * `Decimal.ofScientific_ofBinary`: the decimal that a float is equal to is
    nearest to that float;
  * `Decimal.toFloat_ofBinary`: that float itself;
  * `Decimal.toFloat_mul_pow`: a power of ten may be multiplied out.
-/
import ReversePolish.Number.Decimal
import ReversePolish.Proofs.Packing

namespace ReversePolish.Number

open Float.Model (Format UnpackedFloat totalExponent)
open Float.Model.UnpackedFloat (Sign ExtendedMantissa roundWithAccuracy shiftToExponent
  shiftToTargetExponent divCore accuracyOfFraction)

variable {sign : Sign} {m : Nat} {e : Int}

/-! ## Exact rounding -/

/-- Shifting zeros out leaves no residue. -/
theorem repeat_shiftRightOne (m k : Nat) :
    Nat.repeat ExtendedMantissa.shiftRightOne k ⟨m * 2 ^ k, false, false⟩ = ⟨m, false, false⟩ := by
  induction k generalizing m with
  | zero => simp [Nat.repeat]
  | succ k ih =>
    have hm : m * 2 ^ (k + 1) = 2 * m * 2 ^ k := by ring
    rw [Nat.repeat, hm, ih, ExtendedMantissa.shiftRightOne, Nat.mul_div_cancel_left m (by decide),
      Nat.mul_mod_right]
    rfl

theorem shiftToExponent_exact (m k : Nat) (e : Int) :
    shiftToExponent (m * 2 ^ k) (e - k) .exact e = (⟨m, false, false⟩, e) := by
  have hk : (e - (e - k)).toNat = k := by omega
  rw [shiftToExponent, hk, Int.sub_add_cancel]
  exact congrArg (·, e) (repeat_shiftRightOne m k)

theorem log2_mul_two_pow (hm : 0 < m) (k : Nat) : (m * 2 ^ k).log2 = m.log2 + k := by
  induction k with
  | zero => simp
  | succ k ih =>
    have hpos : m * 2 ^ k ≠ 0 := Nat.ne_of_gt (Nat.mul_pos hm (Nat.two_pow_pos k))
    rw [Nat.pow_succ, ← Nat.mul_assoc, Nat.mul_comm _ 2, Nat.log2_two_mul hpos, ih]
    rfl

/-- The digits of a float, followed by zeros, have the exponent of the float
    for a target. -/
theorem Canonical.targetExponent (h : Canonical m e) (k : Nat) :
    Format.binary64.targetExponent (totalExponent (m * 2 ^ k) (e - k)) = e := by
  have hbits : Format.binary64.mantissaBits = 53 := rfl
  have hmin : Format.binary64.minExponent = -1074 := rfl
  have hlt : m.log2 < 53 := (Nat.log2_lt (Nat.ne_of_gt h.pos)).2 h.lt
  have hle := h.le
  rw [Format.targetExponent, totalExponent, log2_mul_two_pow h.pos, hbits, hmin]
  rcases h.full with hfull | rfl
  · rw [log2_of_full hfull h.lt]
    omega
  · omega

/-- **Nothing is rounded** where the digits of a float are followed by zeros
    only. -/
theorem roundWithAccuracy_exact (h : Canonical m e) (k : Nat) :
    roundWithAccuracy .binary64 sign (m * 2 ^ k) (e - k) .exact = .finite sign m e h.pos := by
  have hfirst : shiftToTargetExponent .binary64 (m * 2 ^ k) (e - k) .exact =
      (⟨m, false, false⟩, e) := by
    rw [shiftToTargetExponent, h.targetExponent, shiftToExponent_exact]
  have hsecond : shiftToTargetExponent .binary64 m e .exact = (⟨m, false, false⟩, e) := by
    have htarget := h.targetExponent 0
    have hshift := shiftToExponent_exact m 0 e
    simp only [Nat.pow_zero, Nat.mul_one, Int.natCast_zero, Int.sub_zero] at htarget hshift
    rw [shiftToTargetExponent, htarget, hshift]
  have hrounded : (⟨m, false, false⟩ : ExtendedMantissa).roundedMantissa = m := rfl
  rw [roundWithAccuracy, hfirst]
  dsimp only
  rw [hrounded, hsecond]
  exact dif_neg (Nat.ne_of_gt h.pos)

/-! ## Decimals -/

namespace Decimal

theorem exponentRange : (2 ^ Format.binary64.exponentBits : Int) = 2048 := rfl

/-- A decimal that is an integer is rounded once. -/
theorem ofScientific_natCast {c z : Nat} (hc : 0 < c) (hz : z ≤ 2 ^ 11) :
    UnpackedFloat.ofScientific .binary64 c z =
      roundWithAccuracy .binary64 .positive (c * 10 ^ z * 2 ^ 53) (0 - 53) .exact := by
  have hproduct : c <<< 53 * 10 ^ z = c * 10 ^ z * 2 ^ 53 := by
    rw [Nat.shiftLeft_eq]
    ring
  rw [UnpackedFloat.ofScientific, dif_neg (Nat.ne_of_gt hc), exponentRange, if_neg (by omega),
    if_neg (by omega), if_pos (by omega)]
  change roundWithAccuracy .binary64 .positive (c <<< 53 * 10 ^ (z : Int).toNat) (0 - 53) .exact = _
  rw [Int.toNat_natCast, hproduct]

/-- A decimal out of range is nearest to infinity. -/
theorem le_of_isFinite {c z : Nat} (hc : 0 < c)
    (h : (UnpackedFloat.ofScientific .binary64 c z).isFinite = true) : z ≤ 2 ^ 11 := by
  by_contra hz
  have hinfinity : UnpackedFloat.ofScientific .binary64 c z = .infinity .positive := by
    rw [UnpackedFloat.ofScientific, dif_neg (Nat.ne_of_gt hc), exponentRange, if_pos (by omega)]
  rw [hinfinity] at h
  cases h

/-- The power of ten of a decimal in range may be multiplied out. -/
theorem ofScientific_mul_pow {c z : Nat}
    (h : (UnpackedFloat.ofScientific .binary64 c z).isFinite = true) :
    UnpackedFloat.ofScientific .binary64 (c * 10 ^ z) 0 =
      UnpackedFloat.ofScientific .binary64 c z := by
  rcases Nat.eq_zero_or_pos c with rfl | hc
  · rw [Nat.zero_mul]
    rfl
  · have hpos : 0 < c * 10 ^ z := Nat.mul_pos hc (Nat.pow_pos (by decide))
    rw [ofScientific_natCast hc (le_of_isFinite hc h)]
    refine (ofScientific_natCast hpos (Nat.zero_le _)).trans ?_
    rw [Nat.pow_zero, Nat.mul_one]

/-- The quotient of `m · 5^n` and `10^n` needs no more than `n` more binary
    digits. -/
theorem quotient_exact (m n k : Nat) :
    (m * 5 ^ n * 2 ^ (n + k)) / 10 ^ n = m * 2 ^ k ∧ (m * 5 ^ n * 2 ^ (n + k)) % 10 ^ n = 0 := by
  have h : m * 5 ^ n * 2 ^ (n + k) = 10 ^ n * (m * 2 ^ k) := by
    rw [show 10 = 5 * 2 from rfl, Nat.mul_pow, Nat.pow_add]
    ring
  rw [h]
  exact ⟨Nat.mul_div_cancel_left _ (Nat.pow_pos (by decide)), Nat.mul_mod_right _ _⟩

/-- The dividend has at most `53` binary digits more than `5 ^ n`. -/
theorem log2_dividend_le (n : Nat) (hm : 0 < m) (hlt : m < 2 ^ 53) :
    (m * 5 ^ n).log2 + n ≤ 53 + (10 ^ n).log2 := by
  have hdividend : 0 < m * 5 ^ n := Nat.mul_pos hm (Nat.pow_pos (by decide))
  have hten : m * 5 ^ n * 2 ^ n = m * 10 ^ n := by
    rw [Nat.mul_assoc, ← Nat.mul_pow]
  have hpos : m * 10 ^ n ≠ 0 := Nat.ne_of_gt (Nat.mul_pos hm (Nat.pow_pos (by decide)))
  have hlt : m * 10 ^ n < 2 ^ (53 + (10 ^ n).log2 + 1) :=
    calc m * 10 ^ n < 2 ^ 53 * 2 ^ ((10 ^ n).log2 + 1) :=
          Nat.mul_lt_mul'' hlt Nat.lt_log2_self
      _ = 2 ^ (53 + (10 ^ n).log2 + 1) := by rw [← Nat.pow_add, Nat.add_assoc]
  rw [← log2_mul_two_pow hdividend, hten]
  exact Nat.le_of_lt_succ ((Nat.log2_lt hpos).2 hlt)

theorem divCore_exact {n : Nat} (h : Canonical m (-(n : Int))) :
    ∃ k : Nat, divCore .binary64 (m * 5 ^ n) 0 (10 ^ n) 0 =
      (m * 2 ^ k, -(n : Int) - k, .exact) := by
  obtain ⟨target, htarget⟩ : ∃ target, target = min (0 - 0 : Int)
    (Format.binary64.targetExponent (totalExponent (m * 5 ^ n) 0 - totalExponent (10 ^ n) 0)) :=
    ⟨_, rfl⟩
  have hle : target ≤ -n := by
    have hlog := log2_dividend_le n h.pos h.lt
    have hbits : Format.binary64.mantissaBits = 53 := rfl
    have hmin : Format.binary64.minExponent = -1074 := rfl
    have hmin' := h.le
    rw [Format.targetExponent, totalExponent, totalExponent, hbits, hmin] at htarget
    omega
  -- the dividend is shifted so far that the quotient has all of its digits
  obtain ⟨k, hk⟩ : ∃ k : Nat, target = -(n : Int) - k := ⟨(-(n : Int) - target).toNat, by omega⟩
  have hshift : (0 - 0 - target).toNat = n + k := by omega
  obtain ⟨hquotient, hremainder⟩ := quotient_exact m n k
  refine ⟨k, ?_⟩
  rw [divCore, ← htarget]
  simp only [hshift, Nat.shiftLeft_eq, hquotient, hremainder]
  rw [hk]
  rfl

/-- A decimal that is a fraction is a quotient. -/
theorem ofScientific_neg {c n : Nat} (hc : 0 < c) (hpos : 0 < n) (hn : n ≤ 2 ^ 11 + c.log2) :
    UnpackedFloat.ofScientific .binary64 c (-(n : Int)) =
      let (m, e, accuracy) := divCore .binary64 c 0 (10 ^ n) 0
      roundWithAccuracy .binary64 .positive m e accuracy := by
  have hnat : (- -(n : Int)).toNat = n := by omega
  rw [UnpackedFloat.ofScientific, dif_neg (Nat.ne_of_gt hc), exponentRange, if_neg (by omega),
    if_neg (by omega), if_neg (by omega)]
  change (let (m, e, accuracy) := divCore .binary64 c 0 (10 ^ (- -(n : Int)).toNat) 0
    roundWithAccuracy .binary64 .positive m e accuracy) = _
  rw [hnat]

/-- **The decimal that a float is equal to** is nearest to it. -/
theorem ofScientific_ofBinary (h : Canonical m e) :
    UnpackedFloat.ofScientific .binary64 (ofBinary m e).coefficient (ofBinary m e).exponent =
      .finite .positive m e h.pos := by
  match e, h with
  | .ofNat n, h =>
    have hpos : 0 < m * 2 ^ n := Nat.mul_pos h.pos (Nat.two_pow_pos n)
    have hdigits : m * 2 ^ n * 10 ^ 0 * 2 ^ 53 = m * 2 ^ (n + 53) := by ring
    have hexponent : (0 - 53 : Int) = Int.ofNat n - (n + 53 : Nat) := by
      rw [Int.ofNat_eq_natCast]
      omega
    refine (ofScientific_natCast (z := 0) hpos (Nat.zero_le _)).trans ?_
    rw [hdigits, hexponent, roundWithAccuracy_exact h]
  | .negSucc n, h =>
    have hpos : 0 < m * 5 ^ (n + 1) := Nat.mul_pos h.pos (Nat.pow_pos (by decide))
    have hle := h.le
    obtain ⟨k, hk⟩ := divCore_exact (n := n + 1) h
    refine (ofScientific_neg hpos (Nat.succ_pos n) (by omega)).trans ?_
    rw [hk]
    exact roundWithAccuracy_exact h k

/-! ## Floats -/

theorem toFloat_ofBinary (h : Canonical m e) :
    (ofBinary m e).toFloat = .ofModel (.pack (.finite .positive m e h.pos)) := by
  rw [← ofScientific_ofBinary h]
  rfl

theorem isFinite_of_pack {u : UnpackedFloat}
    (h : (Float.ofModel (.pack u)).isFinite = true) : u.isFinite = true := by
  rcases u with ⟨_ | _⟩ | _ | _ | _
  · exact absurd h (by decide)
  · exact absurd h (by decide)
  · exact absurd h (by decide)
  · rfl
  · rfl

theorem toFloat_mul_pow {c z : Nat} (h : (toFloat ⟨c, z⟩).isFinite = true) :
    toFloat ⟨c * 10 ^ z, 0⟩ = toFloat ⟨c, z⟩ :=
  congrArg (fun u => Float.ofModel (.pack u)) (ofScientific_mul_pow (isFinite_of_pack h))

end Decimal

end ReversePolish.Number

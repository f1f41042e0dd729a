/-
  The float nearest to a number, of two equally near ones the one with the even
  mantissa.

  * `Number.Nearest` says which float that is, `Number.Nearest.eq` that there is
    one only;
  * `Number.Rounds`: magnitudes below `Number.limit` are rounded to the nearest
    float, the others to an infinity;
  * `Number.Scaled` is the exponent at which a magnitude is rounded to an integer,
    `Number.nearest_of_isRounded`: that integer gives the nearest float;
  * `Number.Carried.rounds`: the rounded magnitude, when rounding may have carried.
-/
import ReversePolish.Proofs.Value

namespace ReversePolish.Number

open Float.Model (UnpackedFloat)
open Float.Model.UnpackedFloat (Sign)

variable {x y : Float} {sign : Sign} {u : UnpackedFloat}
variable {m n : ℕ} {e t k : ℤ} {q v : ℚ}

/-! ## Nearest floats -/

/-- The float is nearest to `q`: those of other values are farther away, or as far
    away and have an odd mantissa where this one has an even one. -/
structure Nearest (q : ℚ) (x : Float) : Prop where
  isFinite : x.isFinite = true
  closest : ∀ y : Float, y.isFinite = true → toRat y ≠ toRat x →
    |q - toRat x| < |q - toRat y| ∨
    |q - toRat x| = |q - toRat y| ∧ mantissa x % 2 = 0 ∧ mantissa y % 2 = 1

theorem Nearest.le (h : Nearest q x) (hy : y.isFinite = true) : |q - toRat x| ≤ |q - toRat y| := by
  by_cases heq : toRat y = toRat x
  · rw [heq]
  · rcases h.closest y hy heq with hlt | ⟨heq, -, -⟩
    · exact hlt.le
    · exact heq.le

/-- **The nearest float** is determined but for the sign of a zero. -/
theorem Nearest.toRat_eq (hx : Nearest q x) (hy : Nearest q y) : toRat x = toRat y := by
  by_contra hne
  rcases hx.closest y hy.isFinite (Ne.symm hne) with hlt | ⟨heq, heven, hodd⟩
  · rcases hy.closest x hx.isFinite hne with hlt' | ⟨heq', -, -⟩
    · exact lt_asymm hlt hlt'
    · exact hlt.ne' heq'
  · rcases hy.closest x hx.isFinite hne with hlt' | ⟨-, heven', -⟩
    · exact hlt'.ne' heq
    · omega

theorem Nearest.eq (hx : Nearest q x) (hy : Nearest q y) (hsign : signOf x = signOf y) : x = y :=
  eq_of_toRat_eq hx.isFinite hy.isFinite (hx.toRat_eq hy) hsign

/-- A finite float is nearest to itself. -/
theorem nearest_toRat (hx : x.isFinite = true) : Nearest (toRat x) x := by
  refine ⟨hx, fun y _ hne => Or.inl ?_⟩
  rw [sub_self, abs_zero]
  exact abs_pos.2 (sub_ne_zero.2 hne.symm)

/-- The least magnitude that is not rounded to a finite float: it is halfway between
    the greatest of them, `2^1024 - 2^971`, and `2^1024`. -/
def limit : ℚ :=
  2 ^ 1024 - 2 ^ 970

/-- The float is the number with this sign and magnitude, rounded. -/
structure Rounds (sign : Sign) (v : ℚ) (x : Float) : Prop where
  nearest : v < limit → Nearest (signed sign v) x
  signOf_eq : v < limit → signOf x = sign
  infinite : limit ≤ v → x = .ofModel (.pack (.infinity sign))

theorem rounds_of_lt (hlimit : v < limit) (hnearest : Nearest (signed sign v) x)
    (hsign : signOf x = sign) : Rounds sign v x :=
  ⟨fun _ => hnearest, fun _ => hsign, fun hle => absurd hlimit (not_lt.2 hle)⟩

theorem rounds_of_le (hlimit : limit ≤ v) (sign : Sign) :
    Rounds sign v (.ofModel (.pack (.infinity sign))) :=
  ⟨fun hlt => absurd hlimit (not_le.2 hlt), fun hlt => absurd hlimit (not_le.2 hlt), fun _ => rfl⟩

theorem isFinite_infinity (sign : Sign) :
    (Float.ofModel (.pack (.infinity sign))).isFinite = false := by
  cases sign <;> rfl

theorem Rounds.isFinite_iff (h : Rounds sign v x) : x.isFinite = true ↔ v < limit := by
  constructor
  · intro hfinite
    by_contra hlimit
    rw [h.infinite (not_lt.1 hlimit), isFinite_infinity] at hfinite
    cases hfinite
  · exact fun hlimit => (h.nearest hlimit).isFinite

/-! ## Negation -/

theorem Nearest.neg (h : Nearest q x) : Nearest (-q) (-x) := by
  refine ⟨isFinite_neg_of_isFinite h.isFinite, fun y hy hne => ?_⟩
  have hy' := isFinite_neg_of_isFinite hy
  have hne' : toRat (-y) ≠ toRat x := by
    rw [toRat_neg hy]
    rintro heq
    rw [toRat_neg h.isFinite, ← heq, InvolutiveNeg.neg_neg] at hne
    exact hne rfl
  have hdistance : ∀ v : ℚ, |-q - v| = |q - -v| := fun v => by
    rw [← abs_neg, neg_sub, sub_neg_eq_add, sub_neg_eq_add, add_comm]
  rw [hdistance, hdistance, ← toRat_neg hy, toRat_neg h.isFinite, InvolutiveNeg.neg_neg,
    mantissa_neg h.isFinite, ← mantissa_neg hy]
  exact h.closest (-y) hy' hne'

theorem Rounds.neg (h : Rounds sign v x) : Rounds (-sign) v (-x) := by
  refine ⟨fun hlimit => ?_, fun hlimit => ?_, fun hlimit => ?_⟩
  · rw [signed_neg]
    exact (h.nearest hlimit).neg
  · rw [signOf_neg (h.nearest hlimit).isFinite, h.signOf_eq hlimit]
  · rw [h.infinite hlimit]
    cases sign <;> rfl

/-! ## Nearest integers -/

/-- The integer is nearest to `q`, of two equally near ones the even one. -/
structure IsRounded (q : ℚ) (n : ℕ) : Prop where
  near : |q - n| ≤ 1 / 2
  even : |q - n| = 1 / 2 → n % 2 = 0

theorem IsRounded.closest (h : IsRounded q n) (hk : k ≠ n) :
    |q - n| < |q - k| ∨ |q - n| = |q - k| ∧ n % 2 = 0 ∧ k % 2 = 1 := by
  have hone : 1 ≤ |(k : ℚ) - n| := by
    have hpos : 0 < |k - (n : ℤ)| := abs_pos.2 (sub_ne_zero.2 hk)
    exact_mod_cast hpos
  have htriangle : |(k : ℚ) - n| ≤ |q - n| + |q - k| := by
    have heq : (k : ℚ) - n = (q - n) - (q - k) := by ring
    rw [heq]
    exact abs_sub _ _
  rcases h.near.lt_or_eq with hlt | hhalf
  · exact Or.inl (by linarith)
  · rcases lt_or_ge (1 / 2) |q - k| with hfar | hnear
    · exact Or.inl (hhalf.trans_lt hfar)
    · have heq : |q - k| = 1 / 2 := le_antisymm hnear (by linarith)
      have hdistance : |k - (n : ℤ)| = 1 := by
        have hle : |(k : ℚ) - n| = 1 := le_antisymm (by linarith) hone
        exact_mod_cast hle
      have heven := h.even hhalf
      refine Or.inr ⟨hhalf.trans heq.symm, heven, ?_⟩
      rcases abs_eq (by decide : (0 : ℤ) ≤ 1) |>.1 hdistance with h | h <;> omega

/-- A nearest integer is not farther away than any other. -/
theorem IsRounded.le (h : IsRounded q n) (k : ℤ) : |q - n| ≤ |q - k| := by
  by_cases hk : k = n
  · rw [hk, Int.cast_natCast]
  · rcases h.closest hk with hlt | ⟨heq, -, -⟩
    · exact hlt.le
    · exact heq.le

/-- A smaller number is farther away than the power of two between it and `q`. -/
theorem IsRounded.lt_of_small {w : ℚ} (h : IsRounded q n) (hq : 2 ^ 52 ≤ q) (hw : |w| < 2 ^ 52) :
    |q - n| < |q - w| := by
  have hpower : |q - n| ≤ q - 2 ^ 52 := by
    have hle := h.le (2 ^ 52)
    rw [Int.cast_pow, Int.cast_ofNat] at hle
    rwa [abs_of_nonneg (sub_nonneg.2 hq)] at hle
  have hlt := (abs_lt.1 hw).2
  have hfar := le_abs_self (q - w)
  linarith

/-! ## Binary places -/

/-- At the exponent `t`, the magnitude has `53` binary digits before its point, or
    fewer if no float has a smaller exponent. -/
structure Scaled (v : ℚ) (t : ℤ) : Prop where
  least : -1074 ≤ t
  lt : v < 2 ^ (t + 53)
  full : 2 ^ (t + 52) ≤ v ∨ t = -1074

theorem div_two_zpow_lt_iff (v : ℚ) (t : ℤ) (k : ℕ) : v / 2 ^ t < 2 ^ k ↔ v < 2 ^ (t + k) := by
  rw [div_lt_iff₀ (two_zpow_pos t), ← zpow_natCast, ← zpow_add₀ (by decide), add_comm _ t]

theorem le_div_two_zpow_iff (v : ℚ) (t : ℤ) (k : ℕ) : 2 ^ k ≤ v / 2 ^ t ↔ 2 ^ (t + k) ≤ v := by
  rw [le_div_iff₀ (two_zpow_pos t), ← zpow_natCast, ← zpow_add₀ (by decide), add_comm _ t]

/-- Rounding may carry to one digit more. -/
theorem Scaled.le_of_isRounded (h : Scaled v t) (hn : IsRounded (v / 2 ^ t) n) : n ≤ 2 ^ 53 := by
  have hlt : v / 2 ^ t < 2 ^ 53 := (div_two_zpow_lt_iff v t 53).2 h.lt
  have hnear := (abs_le.1 hn.near).1
  have hle : (n : ℚ) < 2 ^ 53 + 1 := by linarith
  exact Nat.le_of_lt_succ (by exact_mod_cast hle)

/-- Rounding keeps the number of digits otherwise. -/
theorem Scaled.full_of_isRounded (h : Scaled v t) (hn : IsRounded (v / 2 ^ t) n) :
    2 ^ 52 ≤ n ∨ t = -1074 := by
  refine h.full.imp_left fun hfull => ?_
  have hle : 2 ^ 52 ≤ v / 2 ^ t := (le_div_two_zpow_iff v t 52).2 hfull
  have hnear := (abs_le.1 hn.near).2
  have hlt : (2 ^ 52 : ℚ) < n + 1 := by linarith
  exact Nat.le_of_lt_succ (by exact_mod_cast hlt)

theorem limit_eq : limit = (2 ^ 53 - 1 / 2) * 2 ^ (971 : ℤ) := by
  have hsplit : (2 : ℚ) ^ 1024 = 2 ^ 53 * 2 ^ 971 := pow_add 2 53 971
  have hhalf : (2 : ℚ) ^ 971 = 2 ^ 970 * 2 := pow_succ 2 970
  rw [limit, zpow_ofNat, hsplit, sub_mul, hhalf, one_div_mul_eq_div,
    mul_div_cancel_right₀ _ (by decide)]

theorem limit_le : limit ≤ 2 ^ (1024 : ℤ) := by
  rw [limit, zpow_ofNat]
  exact sub_le_self _ (pow_nonneg (by decide) 970)

theorem le_limit : 2 ^ (1023 : ℤ) ≤ limit := by
  have hdouble : (2 : ℚ) ^ 1024 = 2 ^ 1023 * 2 := pow_succ 2 1023
  have hle : (2 : ℚ) ^ 970 ≤ 2 ^ 1023 := pow_le_pow_right₀ (by decide) (by decide)
  rw [limit, zpow_ofNat, hdouble, mul_two]
  exact le_sub_iff_add_le.2 (by gcongr)

/-- The greatest floats have the exponent `971`. -/
theorem Scaled.lt_limit_iff (h : Scaled v t) (hn : IsRounded (v / 2 ^ t) n) :
    v < limit ↔ t ≤ 970 ∨ t = 971 ∧ n < 2 ^ 53 := by
  rcases lt_trichotomy t 971 with hlt | rfl | hgt
  · refine iff_of_true ?_ (Or.inl (by omega))
    have hle : (2 : ℚ) ^ (t + 53) ≤ 2 ^ (1023 : ℤ) := zpow_le_zpow_right₀ (by decide) (by omega)
    exact (h.lt.trans_le hle).trans_le le_limit
  · rw [limit_eq, ← div_lt_iff₀ (two_zpow_pos 971)]
    generalize v / 2 ^ (971 : ℤ) = q at hn
    obtain ⟨hlow, hhigh⟩ := abs_le.1 hn.near
    constructor
    · intro hq
      refine Or.inr ⟨rfl, ?_⟩
      have hlt : (n : ℚ) < 2 ^ 53 := by linarith
      exact_mod_cast hlt
    · rintro (h | ⟨-, hlt⟩)
      · omega
      -- the last integer is odd, so that halfway up is rounded up
      · by_contra hq
        have hge : (2 ^ 53 : ℚ) ≤ n + 1 := by linarith
        have hle : 2 ^ 53 ≤ n + 1 := by exact_mod_cast hge
        obtain rfl : n = 2 ^ 53 - 1 := by omega
        have hhalf : |q - (2 ^ 53 - 1 : ℕ)| = 1 / 2 := by
          refine le_antisymm hn.near ?_
          push_cast
          refine le_trans ?_ (le_abs_self _)
          linarith
        exact absurd (hn.even hhalf) (by decide)
  · refine iff_of_false ?_ (by omega)
    have hle : (2 : ℚ) ^ (1024 : ℤ) ≤ 2 ^ (t + 52) := zpow_le_zpow_right₀ (by decide) (by omega)
    exact not_lt.2 ((limit_le.trans hle).trans (h.full.resolve_right (by omega)))

/-! ## Other floats -/

/-- The value of a float is an integer at any exponent that is not greater than its
    own, an odd one only if the mantissa is odd. -/
theorem exists_multiple_of_le (m : ℕ) (h : t ≤ e) :
    ∃ k : ℤ, signed sign (m * 2 ^ e) = k * 2 ^ t ∧ (k % 2 = 1 → m % 2 = 1) := by
  have hodd : (m * 2 ^ (e - t).toNat) % 2 = 1 → m % 2 = 1 := fun h => by
    rcases Nat.eq_zero_or_pos (e - t).toNat with hzero | hpos
    · rwa [hzero, pow_zero, mul_one] at h
    · have heven : 2 ∣ m * 2 ^ (e - t).toNat :=
        dvd_mul_of_dvd_right (dvd_pow_self 2 hpos.ne') m
      omega
  rw [mul_two_zpow m h]
  generalize m * 2 ^ (e - t).toNat = k at hodd
  cases sign
  · refine ⟨-(k : ℤ), ?_, fun hk => hodd (by omega)⟩
    rw [signed]
    push_cast
    ring
  · exact ⟨k, rfl, fun hk => hodd (by omega)⟩

/-- Finite floats are integers at the exponent `t`, or have a smaller exponent. -/
theorem exists_multiple (hy : y.isFinite = true) (ht : -1074 ≤ t) :
    (∃ k : ℤ, toRat y = k * 2 ^ t ∧ (k % 2 = 1 → mantissa y % 2 = 1)) ∨
    (-1074 < t ∧ |toRat y| < 2 ^ (t + 52)) := by
  rcases unpacks_of_isFinite hy with ⟨sign, hunpack⟩ | ⟨sign, m, e, hc, hunpack⟩
  · refine Or.inl ⟨0, ?_, by omega⟩
    rw [toRat_of_zero hunpack, Int.cast_zero, zero_mul]
  · rw [toRat_of_finite hunpack, mantissa, hunpack]
    rcases le_or_gt t e with hle | hlt
    · exact Or.inl (exists_multiple_of_le m hle)
    · have hge := hc.le
      refine Or.inr ⟨by omega, ?_⟩
      rw [abs_signed, abs_of_pos hc.value_pos]
      calc (m : ℚ) * 2 ^ e < 2 ^ 53 * 2 ^ e :=
            mul_lt_mul_of_pos_right (by exact_mod_cast hc.lt) (two_zpow_pos e)
        _ = 2 ^ (e + 53) := by
          rw [← zpow_natCast, ← zpow_add₀ (by decide), add_comm e]
          rfl
        _ ≤ 2 ^ (t + 52) := zpow_le_zpow_right₀ (by decide) (by omega)

theorem exists_multiple_signed (hy : y.isFinite = true) (ht : -1074 ≤ t) (sign : Sign) :
    (∃ k : ℤ, signed sign (toRat y) = k * 2 ^ t ∧ (k % 2 = 1 → mantissa y % 2 = 1)) ∨
    (-1074 < t ∧ |signed sign (toRat y)| < 2 ^ (t + 52)) := by
  rw [abs_signed]
  refine (exists_multiple hy ht).imp_left ?_
  rintro ⟨k, hk, hodd⟩
  cases sign
  · refine ⟨-k, ?_, fun hk => hodd (by omega)⟩
    rw [signed, hk]
    push_cast
    ring
  · exact ⟨k, hk, hodd⟩

theorem abs_signed_sub (sign : Sign) (v w : ℚ) (t : ℤ) :
    |signed sign v - w| = |v / 2 ^ t - signed sign w / 2 ^ t| * 2 ^ t := by
  have hpos := two_zpow_pos t
  have hsub : signed sign v - w = signed sign (v - signed sign w) := by
    rw [← signed_sub, signed_signed]
  rw [hsub, abs_signed, ← sub_div, abs_div, abs_of_pos hpos, div_mul_cancel₀ _ hpos.ne']

/-- **A nearest integer** at a suitable exponent is the value of a nearest float. -/
theorem nearest_of_isRounded (hv : Scaled v t) (hn : IsRounded (v / 2 ^ t) n)
    (hx : x.isFinite = true) (hvalue : toRat x = signed sign (n * 2 ^ t))
    (heven : n % 2 = 0 → mantissa x % 2 = 0) : Nearest (signed sign v) x := by
  have hpos := two_zpow_pos t
  have hself : signed sign (toRat x) / 2 ^ t = n := by
    rw [hvalue, signed_signed, mul_div_cancel_right₀ _ hpos.ne']
  refine ⟨hx, fun y hy hne => ?_⟩
  rw [abs_signed_sub sign v _ t, abs_signed_sub sign v _ t, hself, mul_lt_mul_iff_left₀ hpos,
    mul_left_inj' hpos.ne']
  -- only integers are possibly as near
  rcases exists_multiple_signed hy hv.least sign with ⟨k, hk, hodd⟩ | ⟨hleast, hsmall⟩
  · have hne' : k ≠ n := by
      rintro rfl
      apply hne
      rw [← signed_signed sign (toRat y), hk, hvalue, Int.cast_natCast]
    rw [hk, mul_div_cancel_right₀ _ hpos.ne']
    rcases hn.closest hne' with hlt | ⟨heq, h0, h1⟩
    · exact Or.inl hlt
    · exact Or.inr ⟨heq, heven h0, hodd h1⟩
  · have hfull := (le_div_two_zpow_iff v t 52).2 (hv.full.resolve_right hleast.ne')
    refine Or.inl (hn.lt_of_small hfull ?_)
    rw [abs_div, abs_of_pos hpos]
    exact (div_two_zpow_lt_iff _ t 52).2 hsmall

/-! ## Rounded mantissas -/

/-- What the integer `n` at the exponent `t` is unpacked: rounding may have carried to
    a digit more than floats have. -/
inductive Carried (sign : Sign) (n : ℕ) (t : ℤ) : UnpackedFloat → Prop
  | zero : n = 0 → Carried sign n t (.zero sign)
  | kept (hn : 0 < n) : n < 2 ^ 53 → Carried sign n t (.finite sign n t hn)
  | carried : n = 2 ^ 53 → Carried sign n t (.finite sign (2 ^ 52) (t + 1) (by decide))

theorem unpack_zero (sign : Sign) :
    (Float.ofModel (.pack (.zero sign))).toModel.unpack = .zero sign := by
  cases sign <;> rfl

theorem isFinite_zero (sign : Sign) : (Float.ofModel (.pack (.zero sign))).isFinite = true := by
  cases sign <;> rfl

/-- Digits and an exponent of floats that stand for the rounded magnitude are those of the
    nearest float. -/
theorem rounds_of_canonical (hv : Scaled v t) (hn : IsRounded (v / 2 ^ t) n)
    (hc : Canonical m e) (hvalue : (m : ℚ) * 2 ^ e = n * 2 ^ t) (heven : n % 2 = 0 → m % 2 = 0)
    (hlimit : v < limit) : Rounds sign v (.ofModel (.pack (.finite sign m e hc.pos))) := by
  have hunpack := unpack_ofModel_pack hc sign
  have hfinite : (Float.ofModel (.pack (.finite sign m e hc.pos))).isFinite = true := by
    rw [isFinite_eq, hunpack]
    rfl
  refine rounds_of_lt hlimit ?_ ?_
  · refine nearest_of_isRounded hv hn hfinite ?_ ?_
    · rw [toRat_of_finite hunpack, hvalue]
    · rw [mantissa, hunpack]
      exact heven
  · rw [signOf, hunpack]
    rfl

/-- **Rounding** gives the nearest float, or an infinity. -/
theorem Carried.rounds (h : Carried sign n t u) (hv : Scaled v t)
    (hn : IsRounded (v / 2 ^ t) n) : Rounds sign v (.ofModel (.pack u)) := by
  have hiff := hv.lt_limit_iff hn
  have hfull := hv.full_of_isRounded hn
  have hleast := hv.least
  cases h with
  | zero hzero =>
    have hlimit : v < limit := hiff.2 (by omega)
    have hunpack := unpack_zero sign
    refine rounds_of_lt hlimit ?_ ?_
    · refine nearest_of_isRounded hv hn (isFinite_zero sign) ?_ fun _ => ?_
      · rw [toRat_of_zero hunpack, hzero, Nat.cast_zero, zero_mul, signed_zero]
      · rw [mantissa, hunpack]
        exact Nat.zero_mod 2
    · rw [signOf, hunpack]
      rfl
  | kept hpos hlt =>
    by_cases hlimit : v < limit
    · have hrange := hiff.1 hlimit
      have hc : Canonical n t := ⟨hpos, hlt, hleast, by omega, hfull⟩
      exact rounds_of_canonical hv hn hc rfl id hlimit
    · have hexponent : 971 < t := by
        by_contra hle
        exact hlimit (hiff.2 (by omega))
      rw [ofModel_pack_of_lt hpos hexponent]
      exact rounds_of_le (not_lt.1 hlimit) sign
  | carried hcarry =>
    by_cases hlimit : v < limit
    · have hrange := hiff.1 hlimit
      have hc : Canonical (2 ^ 52) (t + 1) :=
        ⟨by decide, by decide, by omega, by omega, .inl le_rfl⟩
      refine rounds_of_canonical hv hn hc ?_ (fun _ => by decide) hlimit
      rw [hcarry, zpow_add_one₀ (by decide)]
      push_cast
      ring
    · have hexponent : 971 < t + 1 := by
        by_contra hle
        exact hlimit (hiff.2 (by omega))
      rw [ofModel_pack_of_lt (by decide) hexponent]
      exact rounds_of_le (not_lt.1 hlimit) sign

/-- Less than half of the least float is rounded to zero. -/
theorem rounds_zero (hv : 0 ≤ v) (hlt : v < 2 ^ (-1075 : ℤ)) (sign : Sign) :
    Rounds sign v (.ofModel (.pack (.zero sign))) := by
  have hscaled : Scaled v (-1074) :=
    ⟨le_rfl, hlt.trans_le (zpow_le_zpow_right₀ (by decide) (by decide)), .inr rfl⟩
  have hhalf : v / 2 ^ (-1074 : ℤ) < 1 / 2 := by
    rw [div_lt_iff₀ (two_zpow_pos _), one_div, ← zpow_neg_one, ← zpow_add₀ (by decide)]
    exact hlt
  have habs : |v / 2 ^ (-1074 : ℤ) - (0 : ℕ)| = v / 2 ^ (-1074 : ℤ) := by
    rw [Nat.cast_zero, sub_zero, abs_of_nonneg (div_nonneg hv (two_zpow_pos _).le)]
  have hrounded : IsRounded (v / 2 ^ (-1074 : ℤ)) 0 :=
    ⟨habs.trans_le hhalf.le, fun _ => rfl⟩
  exact (Carried.zero rfl).rounds hscaled hrounded

end ReversePolish.Number

/-
  Packing: a float is the pack of what it unpacks to.

  * `Number.ofFields` is the unpacked float of a sign, an exponent and a
    mantissa, `Number.exists_fields` finds these for any float;
  * `Number.StandsFor` tells the cases of such fields apart;
  * `Number.Canonical` are the mantissas and exponents that floats unpack to;
  * `Number.pack_unpack`: a float is what its unpacked form packs to, and
    `Number.eq_of_unpack_eq`: it is determined by that form;
  * `Number.neg_neg`: two negations of a finite float cancel out.
-/
import Mathlib.Tactic.Ring
import ReversePolish.Proofs.Unpacked

namespace ReversePolish.Number

open Float.Model (Format UnpackedFloat)
open Float.Model.UnpackedFloat (Sign unpackSign unpackExponent unpackMantissa packComponents)

variable {x y : Float} {sign : Sign} {m : Nat} {e : Int} {hm : 0 < m}

/-! ## Fields -/

/-- The unpacked float with these fields. -/
def ofFields (sign : Sign) (exponent : BitVec 11) (mantissa : BitVec 52) : UnpackedFloat :=
  if exponent = -1#11 then
    if mantissa = 0#52 then .infinity sign else .notANumber
  else if exponent = 0#11 then
    if h : mantissa.toNat = 0 then .zero sign
    else .finite sign mantissa.toNat (-1074) (Nat.pos_of_ne_zero h)
  else
    .finite sign (2 ^ 52 + mantissa.toNat) (exponent.toNat - 1075)
      (Nat.add_pos_left (by decide) _)

/-- The exponents of the bits, apart from those of infinities and zeros. -/
theorem toNat_exponent {exponent : BitVec 11} (hmax : exponent ≠ -1#11)
    (hzero : exponent ≠ 0#11) : 0 < exponent.toNat ∧ exponent.toNat < 2047 := by
  have hlt : exponent.toNat < 2048 := exponent.isLt
  have h0 : exponent.toNat ≠ 0 := fun h => hzero (BitVec.eq_of_toNat_eq h)
  have h1 : exponent.toNat ≠ 2047 := fun h => hmax (BitVec.eq_of_toNat_eq h)
  omega

/-- What the fields of a float stand for. -/
inductive StandsFor (sign : Sign) :
    (exponent : BitVec 11) → (mantissa : BitVec 52) → UnpackedFloat → Prop
  | infinity : StandsFor sign (-1#11) 0#52 (.infinity sign)
  | notANumber {mantissa : BitVec 52} : mantissa ≠ 0#52 →
      StandsFor sign (-1#11) mantissa .notANumber
  | zero : StandsFor sign 0#11 0#52 (.zero sign)
  | subnormal {mantissa : BitVec 52} (hm : 0 < mantissa.toNat) :
      StandsFor sign 0#11 mantissa (.finite sign mantissa.toNat (-1074) hm)
  | normal {exponent : BitVec 11} {mantissa : BitVec 52} (hm : 0 < 2 ^ 52 + mantissa.toNat) :
      0 < exponent.toNat → exponent.toNat < 2047 →
      StandsFor sign exponent mantissa
        (.finite sign (2 ^ 52 + mantissa.toNat) (exponent.toNat - 1075) hm)

theorem standsFor_ofFields (sign : Sign) (exponent : BitVec 11) (mantissa : BitVec 52) :
    StandsFor sign exponent mantissa (ofFields sign exponent mantissa) := by
  unfold ofFields
  by_cases hmax : exponent = -1#11
  · rw [if_pos hmax, hmax]
    by_cases hm : mantissa = 0#52
    · rw [if_pos hm, hm]
      exact .infinity
    · rw [if_neg hm]
      exact .notANumber hm
  rw [if_neg hmax]
  by_cases hzero : exponent = 0#11
  · rw [if_pos hzero, hzero]
    by_cases hm : mantissa.toNat = 0
    · have hm0 : mantissa = 0#52 := BitVec.eq_of_toNat_eq hm
      rw [dif_pos hm, hm0]
      exact .zero
    · rw [dif_neg hm]
      exact .subnormal _
  · obtain ⟨hpos, hlt⟩ := toNat_exponent hmax hzero
    rw [if_neg hzero]
    exact .normal _ hpos hlt

/-- Fields stand for one unpacked float only. -/
theorem StandsFor.eq_ofFields {exponent : BitVec 11} {mantissa : BitVec 52} {u : UnpackedFloat}
    (h : StandsFor sign exponent mantissa u) : u = ofFields sign exponent mantissa := by
  unfold ofFields
  cases h with
  | infinity => rfl
  | notANumber hm => rw [if_pos rfl, if_neg hm]
  | zero => rfl
  | subnormal hm =>
    rw [if_neg (by decide), if_pos rfl, dif_neg (Nat.ne_of_gt hm)]
  | normal hm hpos hlt =>
    have hmax : exponent ≠ -1#11 := fun h => by
      rw [h] at hlt
      exact absurd hlt (by decide)
    have hzero : exponent ≠ 0#11 := fun h => by
      rw [h] at hpos
      exact absurd hpos (by decide)
    rw [if_neg hmax, if_neg hzero]

theorem ofBitVec_toBitVec (sign : Sign) : Sign.ofBitVec sign.toBitVec = sign := by
  cases sign <;> rfl

theorem toBitVec_ofBitVec (b : BitVec 1) : (Sign.ofBitVec b).toBitVec = b := by
  revert b
  decide

theorem unpackSign_packComponents (sign : Sign) (exponent : BitVec 11) (mantissa : BitVec 52) :
    unpackSign (packComponents .binary64 sign exponent mantissa) = sign.toBitVec := by
  have h := append_fields (packComponents .binary64 sign exponent mantissa)
  rw [UnpackedFloat.unpackMantissa_packComponents, UnpackedFloat.unpackExponent_packComponents,
    packComponents, BitVec.append_left_inj, BitVec.append_left_inj] at h
  exact h

theorem toNat_implicit_append (mantissa : BitVec 52) :
    (1#1 ++ mantissa).toNat = 2 ^ 52 + mantissa.toNat := by
  rw [BitVec.toNat_append, ← Nat.shiftLeft_add_eq_or_of_lt mantissa.isLt]
  rfl

theorem finite_congr {m' : Nat} {e' : Int} {hm' : 0 < m'} (h : m = m') (he : e = e') :
    UnpackedFloat.finite sign m e hm = .finite sign m' e' hm' := by
  subst h he
  rfl

/-- Unpacking looks at the fields. -/
theorem unpack_eq_ofFields (b : BitVec Format.binary64.numBits) :
    UnpackedFloat.unpack .binary64 b =
      ofFields (.ofBitVec (unpackSign b)) (unpackExponent b) (unpackMantissa b) := by
  delta UnpackedFloat.unpack
  dsimp only
  rw [ofFields]
  by_cases hmax : unpackExponent b = -1#11
  · rw [if_pos hmax, if_pos hmax]
  rw [if_neg hmax, if_neg hmax]
  by_cases hzero : unpackExponent b = 0#11
  · rw [if_pos hzero, if_pos hzero]
    by_cases hm : unpackMantissa b = 0#52
    · have hm0 : (unpackMantissa b).toNat = 0 := congrArg BitVec.toNat hm
      rw [dif_pos hm, dif_pos hm0]
    · have hm0 : (unpackMantissa b).toNat ≠ 0 := fun h => hm (BitVec.eq_of_toNat_eq h)
      rw [dif_neg hm, dif_neg hm0, hzero]
      rfl
  · rw [if_neg hzero, if_neg hzero]
    exact finite_congr (toNat_implicit_append _) rfl

theorem unpack_packComponents (sign : Sign) (exponent : BitVec 11) (mantissa : BitVec 52) :
    UnpackedFloat.unpack .binary64 (packComponents .binary64 sign exponent mantissa) =
      ofFields sign exponent mantissa := by
  rw [unpack_eq_ofFields, unpackSign_packComponents, ofBitVec_toBitVec,
    UnpackedFloat.unpackExponent_packComponents, UnpackedFloat.unpackMantissa_packComponents]

/-- Every float has fields. -/
theorem exists_fields (x : Float) :
    ∃ sign exponent mantissa,
      x.toModel.toBits.toBitVec = packComponents .binary64 sign exponent mantissa ∧
      x.toModel.unpack = ofFields sign exponent mantissa := by
  let bits : BitVec Format.binary64.numBits := x.toModel.toBits.toBitVec
  have hbits : bits = packComponents .binary64 (.ofBitVec (unpackSign bits))
      (unpackExponent bits) (unpackMantissa bits) := by
    rw [packComponents, toBitVec_ofBitVec]
    exact (append_fields bits).symm
  exact ⟨_, _, _, hbits, unpack_eq_ofFields bits⟩

/-! ## Canonical forms -/

/-- The positive mantissas below `2^53`, with the exponents that make them floats.
    Only the floats with the least exponent have less than `53` digits. -/
structure Canonical (m : Nat) (e : Int) : Prop where
  pos : 0 < m
  lt : m < 2 ^ 53
  le : -1074 ≤ e
  ge : e ≤ 971
  full : 2 ^ 52 ≤ m ∨ e = -1074

theorem canonical_of_ofFields {sign' : Sign} {exponent : BitVec 11} {mantissa : BitVec 52}
    (h : ofFields sign exponent mantissa = .finite sign' m e hm) : Canonical m e := by
  have hlt : mantissa.toNat < 2 ^ 52 := mantissa.isLt
  have hfields := standsFor_ofFields sign exponent mantissa
  rw [h] at hfields
  cases hfields with
  | subnormal hm => exact ⟨hm, by omega, by omega, by omega, .inr rfl⟩
  | normal hm hpos hmax => exact ⟨hm, by omega, by omega, by omega, .inl (by omega)⟩

theorem log2_of_full (h : 2 ^ 52 ≤ m) (hlt : m < 2 ^ 53) : m.log2 = 52 :=
  (Nat.log2_eq_iff (by omega)).2 ⟨h, hlt⟩

theorem biasedExponent (e : Int) :
    (e + Format.binary64.exponentBias + (52 : Nat)).toNat = (e + 1075).toNat := by
  have hbias : ((Format.binary64.exponentBias : Nat) : Int) = 1023 := rfl
  rw [hbias]
  omega

/-- A mantissa of less than `53` digits is packed with the exponent field `0`. -/
theorem pack_subnormal {mantissa : BitVec 52} (hm : 0 < mantissa.toNat) :
    UnpackedFloat.pack .binary64 (.finite sign mantissa.toNat (-1074) hm) =
      packComponents .binary64 sign 0#11 mantissa := by
  have hlog : mantissa.toNat.log2 < 52 := (Nat.log2_lt (Nat.ne_of_gt hm)).2 mantissa.isLt
  have hbits : Format.binary64.mantissaBits = 53 := rfl
  delta UnpackedFloat.pack
  dsimp only
  rw [if_neg (by decide), if_neg (by omega), BitVec.ofNat_toNat]
  rfl

/-- Otherwise the leading digit is left out. -/
theorem pack_normal {exponent : BitVec 11} {mantissa : BitVec 52}
    (hmax : exponent.toNat < 2047) (hm : 0 < 2 ^ 52 + mantissa.toNat) :
    UnpackedFloat.pack .binary64
        (.finite sign (2 ^ 52 + mantissa.toNat) (exponent.toNat - 1075) hm) =
      packComponents .binary64 sign exponent mantissa := by
  have hlt : mantissa.toNat < 2 ^ 52 := mantissa.isLt
  have hlog : (2 ^ 52 + mantissa.toNat).log2 = 52 :=
    log2_of_full (Nat.le_add_right _ _) (by omega)
  have hbiased : ((exponent.toNat : Int) - 1075 + 1075).toNat = exponent.toNat := by omega
  have hmantissa : BitVec.ofNat 52 (2 ^ 52 + mantissa.toNat) = mantissa := by
    apply BitVec.eq_of_toNat_eq
    rw [BitVec.toNat_ofNat, Nat.add_mod_left, Nat.mod_eq_of_lt hlt]
  delta UnpackedFloat.pack
  dsimp only
  rw [biasedExponent, hbiased, hlog, if_neg (by omega), if_pos (by decide), BitVec.ofNat_toNat,
    BitVec.setWidth_eq]
  exact congrArg _ hmantissa

/-- Packing puts the fields of a float together again, except for a NaN, which does
    not keep its mantissa. -/
theorem pack_ofFields {exponent : BitVec 11} {mantissa : BitVec 52}
    (h : ofFields sign exponent mantissa ≠ .notANumber) :
    UnpackedFloat.pack .binary64 (ofFields sign exponent mantissa) =
      packComponents .binary64 sign exponent mantissa := by
  have hfields := standsFor_ofFields sign exponent mantissa
  generalize ofFields sign exponent mantissa = u at h hfields ⊢
  cases hfields with
  | infinity => rfl
  | notANumber => exact absurd rfl h
  | zero => rfl
  | subnormal hm => exact pack_subnormal hm
  | normal hm _ hmax => exact pack_normal hmax hm

theorem isFinite_neg (u : UnpackedFloat) : u.neg.isFinite = u.isFinite := by
  cases u <;> rfl

theorem StandsFor.neg {exponent : BitVec 11} {mantissa : BitVec 52} {u : UnpackedFloat}
    (h : StandsFor sign exponent mantissa u) : StandsFor (-sign) exponent mantissa u.neg := by
  cases h with
  | infinity => exact .infinity
  | notANumber hm => exact .notANumber hm
  | zero => exact .zero
  | subnormal hm => exact .subnormal hm
  | normal hm hpos hmax => exact .normal hm hpos hmax

theorem neg_ofFields (exponent : BitVec 11) (mantissa : BitVec 52) :
    (ofFields sign exponent mantissa).neg = ofFields (-sign) exponent mantissa :=
  (standsFor_ofFields sign exponent mantissa).neg.eq_ofFields

/-! ## Floats -/

/-- A float is finite if its unpacked form is. -/
theorem isFinite_eq (x : Float) : x.isFinite = x.toModel.unpack.isFinite := rfl

theorem canonical_of_unpack (h : x.toModel.unpack = .finite sign m e hm) : Canonical m e := by
  obtain ⟨sign, exponent, mantissa, -, hx⟩ := exists_fields x
  exact canonical_of_ofFields (hx.symm.trans h)

theorem ne_notANumber_of_isFinite {u : UnpackedFloat} (h : u.isFinite = true) :
    u ≠ .notANumber := by
  rintro rfl
  cases h

/-- There is one NaN only. -/
theorem toBits_of_unpack_notANumber (h : x.toModel.unpack = .notANumber) :
    x.toModel.toBits.toBitVec = UnpackedFloat.packedNaN .binary64 := by
  obtain ⟨sign, exponent, mantissa, hbits, hx⟩ := exists_fields x
  have hvalid := x.toModel.valid
  have hfields := standsFor_ofFields sign exponent mantissa
  rw [← hx, h] at hfields
  rw [hbits] at hvalid ⊢
  cases hfields with
  | notANumber hm =>
    refine hvalid.eq_packedNaN UnpackedFloat.unpackExponent_packComponents ?_
    rw [UnpackedFloat.unpackMantissa_packComponents]
    exact hm

/-- **A float** is what its unpacked form packs to. -/
theorem pack_unpack (x : Float) : .ofModel (.pack x.toModel.unpack) = x := by
  apply eq_of_toBits_eq
  apply UInt64.toBitVec_inj.1
  by_cases hnan : x.toModel.unpack = .notANumber
  · rw [hnan]
    exact (toBits_of_unpack_notANumber hnan).symm
  · obtain ⟨sign, exponent, mantissa, hbits, hx⟩ := exists_fields x
    rw [hx] at hnan ⊢
    exact (pack_ofFields hnan).trans hbits.symm

theorem eq_of_unpack_eq (h : x.toModel.unpack = y.toModel.unpack) : x = y := by
  rw [← pack_unpack x, h, pack_unpack]

theorem unpack_pack {exponent : BitVec 11} {mantissa : BitVec 52}
    (h : (ofFields sign exponent mantissa).isFinite = true) :
    (Float.Model.pack (ofFields sign exponent mantissa)).unpack =
      ofFields sign exponent mantissa := by
  refine Eq.trans ?_ (unpack_packComponents sign exponent mantissa)
  rw [← pack_ofFields (ne_notANumber_of_isFinite h)]
  rfl

/-- Negating a finite float changes its sign only. -/
theorem unpack_neg (h : x.isFinite = true) : (-x).toModel.unpack = x.toModel.unpack.neg := by
  obtain ⟨sign, exponent, mantissa, -, hx⟩ := exists_fields x
  have hfinite : x.toModel.unpack.neg.isFinite = true := (isFinite_neg _).trans h
  have hneg : (-x).toModel = .pack x.toModel.unpack.neg := rfl
  rw [hx, neg_ofFields] at hfinite hneg
  rw [hneg, unpack_pack hfinite, hx, neg_ofFields]

theorem isFinite_neg_of_isFinite (h : x.isFinite = true) : (-x).isFinite = true := by
  rw [isFinite_eq, unpack_neg h, isFinite_neg, ← isFinite_eq]
  exact h

theorem neg_neg (h : x.isFinite = true) : - -x = x := by
  have hsign : ∀ sign : Sign, - -sign = sign := fun sign => by cases sign <;> rfl
  have hneg : ∀ u : UnpackedFloat, u.neg.neg = u := by
    intro u
    cases u with
    | notANumber => rfl
    | infinity sign => exact congrArg UnpackedFloat.infinity (hsign sign)
    | zero sign => exact congrArg UnpackedFloat.zero (hsign sign)
    | finite sign m e hm => exact congrArg (UnpackedFloat.finite · m e hm) (hsign sign)
  calc - -x = .ofModel (.pack (-x).toModel.unpack.neg) := rfl
    _ = .ofModel (.pack x.toModel.unpack) := by rw [unpack_neg h, hneg]
    _ = x := pack_unpack x

end ReversePolish.Number

/-
  Floats through their unpacked form.

  * `Number.append_fields`: the bits of a float are its sign, its exponent and
    its mantissa;
  * `Number.eq_zero_of_unpack`: only the two zeros unpack to a zero;
  * `Number.beq_zero_iff`: only the two zeros equal zero;
  * `Number.not_lt_of_isNaN`: a NaN is below no float.
-/

namespace ReversePolish.Number

open Float.Model (Format UnpackedFloat)
open Float.Model.UnpackedFloat (Sign unpackSign unpackExponent unpackMantissa)

variable {x y : Float} {sign : Sign}

/-! ## Bits -/

theorem eq_of_toBits_eq (h : x.toBits = y.toBits) : x = y := by
  obtain ⟨⟨bits, hx⟩⟩ := x
  obtain ⟨⟨bits', hy⟩⟩ := y
  cases h
  rfl

/-- The bits are those of the sign, the exponent and the mantissa. -/
theorem append_fields (b : BitVec Format.binary64.numBits) :
    unpackSign b ++ unpackExponent b ++ unpackMantissa b = b := by
  calc unpackSign b ++ unpackExponent b ++ unpackMantissa b
      = b.extractLsb' 63 1 ++ b.extractLsb' 52 11 ++ b.extractLsb' 0 52 := rfl
    _ = b.extractLsb' 52 12 ++ b.extractLsb' 0 52 :=
      congrArg (· ++ _) (BitVec.extractLsb'_append_extractLsb'_eq_extractLsb' rfl)
    _ = b.extractLsb' 0 64 := BitVec.extractLsb'_append_extractLsb'_eq_extractLsb' rfl
    _ = b := BitVec.extractLsb'_eq_self

theorem fields_of_unpack_zero {b : BitVec Format.binary64.numBits}
    (h : UnpackedFloat.unpack .binary64 b = .zero sign) :
    unpackExponent b = 0#_ ∧ unpackMantissa b = 0#_ := by
  delta UnpackedFloat.unpack at h
  dsimp only at h
  -- the greatest exponent is that of infinities and NaN, the least that of zeros and subnormals
  by_cases hmax : unpackExponent b = -1#_
  · rw [if_pos hmax] at h
    split at h <;> cases h
  rw [if_neg hmax] at h
  by_cases he : unpackExponent b = 0#_
  · rw [if_pos he] at h
    by_cases hm : unpackMantissa b = 0#_
    · exact ⟨he, hm⟩
    · rw [dif_neg hm] at h
      cases h
  · rw [if_neg he] at h
    cases h

/-! ## Zeros -/

/-- **The zeros** are the two floats that unpack to a zero. -/
theorem eq_zero_of_unpack (h : x.toModel.unpack = .zero sign) : x = 0.0 ∨ x = -0.0 := by
  obtain ⟨he, hm⟩ := fields_of_unpack_zero h
  have hbits := append_fields x.toModel.toBits.toBitVec
  rw [he, hm] at hbits
  have hsign : ∀ s : BitVec 1, s = 0#1 ∨ s = 1#1 := by decide
  rcases hsign (@unpackSign .binary64 x.toModel.toBits.toBitVec) with hs | hs
  · rw [hs] at hbits
    exact Or.inl (eq_of_toBits_eq (UInt64.toBitVec_inj.1 hbits.symm))
  · rw [hs] at hbits
    exact Or.inr (eq_of_toBits_eq (UInt64.toBitVec_inj.1 hbits.symm))

theorem exists_of_compare_zero {u : UnpackedFloat} (h : u.compare (.zero sign) = some .eq) :
    ∃ sign', u = .zero sign' := by
  cases u with
  | zero sign' => exact ⟨sign', rfl⟩
  | notANumber => cases h
  | infinity sign' => cases sign' <;> cases h
  | finite sign' => cases sign' <;> cases h

/-- Only the zeros equal zero. -/
theorem beq_zero_iff : (x == 0.0) = true ↔ x = 0.0 ∨ x = -0.0 := by
  constructor
  · intro h
    have hc : x.toModel.unpack.compare (.zero .positive) = some .eq := eq_of_beq h
    obtain ⟨sign, hz⟩ := exists_of_compare_zero hc
    exact eq_zero_of_unpack hz
  · rintro (rfl | rfl) <;> decide

/-! ## Comparisons -/

theorem unpack_of_isNaN (h : x.isNaN = true) : x.toModel.unpack = .notANumber := by
  have hu : x.toModel.unpack.isNaN = true := h
  rcases hx : x.toModel.unpack with sign | - | sign | sign
  all_goals first | rfl | (rw [hx] at hu; cases hu)

/-- A NaN is below no float. -/
theorem not_lt_of_isNaN (h : x.isNaN = true) : ¬ x < y := by
  intro hlt
  have hc : x.toModel.unpack.compare y.toModel.unpack = some .lt :=
    eq_of_beq (of_decide_eq_true hlt)
  rw [unpack_of_isNaN h] at hc
  cases hc

end ReversePolish.Number

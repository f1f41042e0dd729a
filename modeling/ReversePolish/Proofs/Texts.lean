/-
  The texts of floats, told apart.

  * `Number.Special` are the floats that are not finite: NaN and the infinities;
  * `Number.token` is the token that a float is shown as: the number, or a word for
    a float that is not finite;
  * `Number.ofChunk_text_eq`: the text of a float is read back as this token;
  * `Number.text_injective`: different floats have different texts.
-/
import ReversePolish.Proofs.Numeral
import ReversePolish.Proofs.Readback

namespace ReversePolish.Number

open Float.Model.UnpackedFloat (Sign)
open Text (isBlank IsChunk)

variable {x y : Float}

/-! ## Floats that are not finite -/

/-- NaN and the infinities. -/
inductive Special : Float → Prop
  | notANumber : Special (.ofModel (.pack .notANumber))
  | infinity (sign : Sign) : Special (.ofModel (.pack (.infinity sign)))

theorem special_of_not_isFinite (h : x.isFinite = false) : Special x := by
  rw [isFinite_eq] at h
  rw [← pack_unpack x]
  generalize x.toModel.unpack = u at h
  cases u with
  | infinity sign => exact .infinity sign
  | notANumber => exact .notANumber
  | zero | finite => cases h

/-- The word for a float that is not finite. -/
def word (x : Float) : String :=
  if x.isNaN then "NaN" else if x < 0.0 then "-inf" else "inf"

theorem Special.ofChunk_text (h : Special x) : Token.ofChunk (text x) = .word (word x) := by
  cases h with
  | notANumber => decide
  | infinity sign => cases sign <;> decide

theorem Special.isChunk_text (h : Special x) : IsChunk (text x) := by
  cases h with
  | notANumber => exact Text.isChunk_of_all (by decide) rfl
  | infinity sign => cases sign <;> exact Text.isChunk_of_all (by decide) rfl

theorem Special.eq_of_word_eq (hx : Special x) (hy : Special y) (h : word x = word y) : x = y := by
  obtain _ | ⟨_ | _⟩ := hx <;> obtain _ | ⟨_ | _⟩ := hy <;> revert h <;> decide

/-! ## All floats -/

/-- The token that a float is shown as. -/
def token (x : Float) : Token :=
  if x.isFinite then .number x else .word (word x)

theorem token_of_isFinite (h : x.isFinite = true) : token x = .number x :=
  if_pos h

theorem token_of_special (h : x.isFinite = false) : token x = .word (word x) := by
  rw [token, h]
  rfl

/-- **The text of a float** is read back as its token. -/
theorem ofChunk_text_eq (x : Float) : Token.ofChunk (text x) = token x := by
  cases h : x.isFinite with
  | true => rw [token_of_isFinite h, ofChunk_text h]
  | false => rw [token_of_special h, (special_of_not_isFinite h).ofChunk_text]

theorem isChunk_text (x : Float) : IsChunk (text x) := by
  cases h : x.isFinite with
  | true => exact Numeral.isChunk ⟨_, x, ofChunk_text h⟩
  | false => exact (special_of_not_isFinite h).isChunk_text

theorem token_injective : Function.Injective token := by
  intro x y h
  cases hx : x.isFinite with
  | true =>
    cases hy : y.isFinite with
    | true =>
      rw [token_of_isFinite hx, token_of_isFinite hy] at h
      exact Token.number.inj h
    | false =>
      rw [token_of_isFinite hx, token_of_special hy] at h
      cases h
  | false =>
    cases hy : y.isFinite with
    | true =>
      rw [token_of_special hx, token_of_isFinite hy] at h
      cases h
    | false =>
      rw [token_of_special hx, token_of_special hy] at h
      exact (special_of_not_isFinite hx).eq_of_word_eq (special_of_not_isFinite hy)
        (Token.word.inj h)

/-- **Different floats have different texts**, the two zeros included; all NaNs are
    one float. -/
theorem text_injective : Function.Injective text := by
  intro x y h
  apply token_injective
  rw [← ofChunk_text_eq, ← ofChunk_text_eq, h]

end ReversePolish.Number

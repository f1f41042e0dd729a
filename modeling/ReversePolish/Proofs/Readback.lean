/-
  Reading back the text of a finite float.

  * `Literal.read?_whole` and `Literal.read?_fraction` read digits with and
    without a point;
  * `Decimal.read?_digits`: the digits of a decimal are a literal with the same
    nearest float;
  * `Number.toFloat_shortest`: the shortest decimal of a float is nearest to
    the float;
  * `Number.ofChunk_text`: the text of a finite float is the number itself.
-/
import Mathlib.Data.List.TakeWhile
import ReversePolish.Number.Text
import ReversePolish.Proofs.Rounding
import ReversePolish.Token.Basic

namespace ReversePolish.Number

open Float.Model (UnpackedFloat)
open Float.Model.UnpackedFloat (Sign)

/-! ## Literals -/

namespace Literal

variable {whole fraction cs : List Char}

theorem readSign_digits (hne : whole ≠ []) (hdigits : ∀ c ∈ whole, c.isDigit = true) :
    readSign (whole ++ cs) = (false, whole ++ cs) := by
  obtain ⟨c, whole, rfl⟩ := List.exists_cons_of_ne_nil hne
  have hc := hdigits c (List.mem_cons_self ..)
  rw [List.cons_append]
  unfold readSign
  split
  · next heq => cases heq; cases hc
  · next heq => cases heq; cases hc
  · rfl

theorem read?_whole (hne : whole ≠ []) (hdigits : ∀ c ∈ whole, c.isDigit = true) :
    read? whole = some ⟨false, ⟨digitsValue whole, 0⟩⟩ := by
  have hsign : readSign (whole ++ []) = _ := readSign_digits hne hdigits
  rw [List.append_nil] at hsign
  have htake : whole.takeWhile Char.isDigit = whole := List.takeWhile_eq_self_iff.2 hdigits
  have hdrop : whole.dropWhile Char.isDigit = [] := List.dropWhile_eq_nil_iff.2 hdigits
  simp only [read?, hsign, htake, hdrop, readFraction, List.append_nil, if_neg hne]
  rfl

theorem read?_fraction (hne : whole ≠ []) (hdigits : ∀ c ∈ whole, c.isDigit = true)
    (hfraction : ∀ c ∈ fraction, c.isDigit = true) :
    read? (whole ++ '.' :: fraction) =
      some ⟨false, ⟨digitsValue (whole ++ fraction), -fraction.length⟩⟩ := by
  have htake : (whole ++ '.' :: fraction).takeWhile Char.isDigit = whole := by
    rw [List.takeWhile_append_of_pos hdigits]
    exact List.append_nil whole
  have hdrop : (whole ++ '.' :: fraction).dropWhile Char.isDigit = '.' :: fraction := by
    rw [List.dropWhile_append_of_pos hdigits]
    rfl
  have htake' : fraction.takeWhile Char.isDigit = fraction :=
    List.takeWhile_eq_self_iff.2 hfraction
  have hdrop' : fraction.dropWhile Char.isDigit = [] := List.dropWhile_eq_nil_iff.2 hfraction
  have hne' : whole ++ fraction ≠ [] := List.append_ne_nil_of_left_ne_nil hne fraction
  simp only [read?, readSign_digits hne hdigits, htake, hdrop, readFraction, htake', hdrop',
    if_neg hne', readExponent?, Option.map_some, Int.zero_sub]

/-- A minus makes an unsigned literal negative. -/
theorem read?_minus {literal : Literal} (hsign : readSign cs = (false, cs))
    (hread : read? cs = some literal) :
    read? ('-' :: cs) = some ⟨true, literal.magnitude⟩ := by
  simp only [read?, hsign] at hread
  simp only [read?, readSign]
  split at hread
  · cases hread
  · next hne =>
    rw [if_neg hne]
    obtain ⟨exponent, hexponent, rfl⟩ := Option.map_eq_some_iff.1 hread
    rw [hexponent]
    rfl

end Literal

/-! ## Digits -/

namespace Decimal

open Literal (digitsValue)

variable {d : Decimal}

theorem isDigit_toDigits (c : Nat) : ∀ digit ∈ Nat.toDigits 10 c, digit.isDigit = true :=
  fun _ h => Nat.isDigit_of_mem_toDigits (by decide) (by decide) h

theorem isDigit_replicate (n : Nat) : ∀ digit ∈ List.replicate n '0', digit.isDigit = true :=
  fun _ h => List.eq_of_mem_replicate h ▸ rfl

theorem digitsValue_append_zeros (c zeros : Nat) :
    digitsValue (Nat.toDigits 10 c ++ List.replicate zeros '0') = c * 10 ^ zeros := by
  rw [digitsValue, Nat.ofDigitChars_append, Nat.ofDigitChars_ten_toDigits,
    Nat.ofDigitChars_replicate_zero, Nat.mul_comm]

theorem digitsValue_zeros_append (c zeros : Nat) :
    digitsValue (List.replicate zeros '0' ++ Nat.toDigits 10 c) = c := by
  rw [digitsValue, Nat.ofDigitChars_append, Nat.ofDigitChars_replicate_zero, Nat.mul_zero,
    Nat.ofDigitChars_ten_toDigits]

/-- The digits of a fraction around its point. -/
theorem digits_fraction (c n : Nat) :
    ∃ whole fraction, digits ⟨c, .negSucc n⟩ = whole ++ '.' :: fraction ∧
      whole ≠ [] ∧ fraction.length = n + 1 ∧ digitsValue (whole ++ fraction) = c ∧
      ∀ digit ∈ whole ++ fraction, digit.isDigit = true := by
  let padded := List.replicate (n + 2 - (Nat.toDigits 10 c).length) '0' ++ Nat.toDigits 10 c
  let whole := padded.length - (n + 1)
  have hlength : n + 2 ≤ padded.length := by
    rw [List.length_append, List.length_replicate]
    omega
  refine ⟨padded.take whole, padded.drop whole, rfl, ?_, ?_, ?_, ?_⟩
  · rw [← List.length_pos_iff, List.length_take]
    omega
  · rw [List.length_drop]
    omega
  · rw [List.take_append_drop, digitsValue_zeros_append]
  · rw [List.take_append_drop]
    intro digit hmem
    exact (List.mem_append.1 hmem).elim (isDigit_replicate _ digit) (isDigit_toDigits c digit)

/-- The digits of a decimal are read as an unsigned literal with the same
    nearest float. -/
theorem read?_digits (h : d.toFloat.isFinite = true) :
    Literal.readSign d.digits = (false, d.digits) ∧
      ∃ magnitude : Decimal, Literal.read? d.digits = some ⟨false, magnitude⟩ ∧
        magnitude.toFloat = d.toFloat := by
  obtain ⟨c, zeros | n⟩ := d
  · have hdigits : ∀ digit ∈ Nat.toDigits 10 c ++ List.replicate zeros '0',
        digit.isDigit = true := fun digit hmem =>
      (List.mem_append.1 hmem).elim (isDigit_toDigits c digit) (isDigit_replicate zeros digit)
    have hne : Nat.toDigits 10 c ++ List.replicate zeros '0' ≠ [] :=
      List.append_ne_nil_of_left_ne_nil Nat.toDigits_ne_nil _
    have hsign : Literal.readSign (_ ++ []) = _ := Literal.readSign_digits hne hdigits
    have hvalue := toFloat_mul_pow h
    rw [List.append_nil] at hsign
    rw [← digitsValue_append_zeros] at hvalue
    exact ⟨hsign, _, Literal.read?_whole hne hdigits, hvalue⟩
  · obtain ⟨whole, fraction, heq, hne, hlength, hvalue, hdigits⟩ := digits_fraction c n
    have hwhole := fun digit hmem => hdigits digit (List.mem_append_left fraction hmem)
    have hfraction := fun digit hmem => hdigits digit (List.mem_append_right whole hmem)
    rw [heq]
    refine ⟨Literal.readSign_digits hne hwhole, _,
      Literal.read?_fraction hne hwhole hfraction, ?_⟩
    rw [hvalue, hlength]
    rfl

end Decimal

/-! ## Texts -/

variable {x : Float} {sign : Sign} {m : Nat} {e : Int} {hm : 0 < m}

/-- The shortest decimal of a float has the same nearest float as the decimal that
    the float is equal to. -/
theorem toFloat_shortest (h : Canonical m e) :
    (shortest m e).toFloat = .ofModel (.pack (.finite .positive m e h.pos)) := by
  rw [← Decimal.toFloat_ofBinary h]
  let accepts (d : Decimal) : Bool := d.toFloat.toBits == (Decimal.ofBinary m e).toFloat.toBits
  have haccepted : accepts (shortest m e) = true :=
    @Decimal.shorten_accepted _ accepts (beq_self_eq_true _) _
  exact eq_of_toBits_eq (eq_of_beq haccepted)

/-- A sign and the digits of the magnitude are the number that has that sign. -/
theorem ofChunk_digits {d : Decimal} {y : Float} (hd : d.toFloat = y)
    (hfinite : y.isFinite = true) :
    Token.ofChunk (signText .positive ++ .ofList d.digits) = .number y ∧
      Token.ofChunk (signText .negative ++ .ofList d.digits) = .number (-y) := by
  subst hd
  obtain ⟨hsign, magnitude, hread, hvalue⟩ := Decimal.read?_digits hfinite
  have hpositive : (signText .positive ++ .ofList d.digits).toList = d.digits := by
    simp [signText]
  have hnegative : (signText .negative ++ .ofList d.digits).toList = '-' :: d.digits := by
    simp [signText]
  have hneg := isFinite_neg_of_isFinite hfinite
  rw [Token.ofChunk, Token.ofChunk, hpositive, hnegative, hread,
    Literal.read?_minus hsign hread]
  simp only [Literal.toFloat, hvalue, if_true, Bool.false_eq_true, if_false, hfinite, hneg, and_self]

/-- **The text of a finite float** is read back as the float. -/
theorem ofChunk_text (h : x.isFinite = true) : Token.ofChunk (text x) = .number x := by
  rcases hx : x.toModel.unpack with sign | - | sign | ⟨sign, m, e, hm⟩
  · rw [isFinite_eq, hx] at h
    cases h
  · rw [isFinite_eq, hx] at h
    cases h
  · rcases eq_zero_of_unpack hx with rfl | rfl <;> decide
  · have hshortest := toFloat_shortest (canonical_of_unpack hx)
    rw [text, hx]
    cases sign
    · have hneg : .ofModel (.pack (.finite .positive m e hm)) = -x := by
        rw [show -x = .ofModel (.pack x.toModel.unpack.neg) from rfl, hx]
        rfl
      rw [hneg] at hshortest
      have hchunk := (ofChunk_digits hshortest (isFinite_neg_of_isFinite h)).2
      rwa [neg_neg h] at hchunk
    · have hpos : .ofModel (.pack (.finite .positive m e hm)) = x := by
        rw [← hx, pack_unpack]
      rw [hpos] at hshortest
      exact (ofChunk_digits hshortest h).1

end ReversePolish.Number

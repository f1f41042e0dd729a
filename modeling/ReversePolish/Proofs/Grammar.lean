/-
  The texts of numbers.

      number   ::= sign? mantissa exponent?
      mantissa ::= digit+ | digit+ '.' digit* | '.' digit+
      exponent ::= ('e' | 'E') sign? digit+
      sign     ::= '+' | '-'

  * `Number.Denotes` is this grammar, with the sign and the exact magnitude that a
    text stands for;
  * `Literal.denotes_of_read?` and `Number.Denotes.exists_read?`: literals are read
    from the texts of the grammar, with their magnitudes, and from no others;
  * `Number.Denotes.unique`: a text stands for one number only;
  * `Token.ofChunk_reads_numbers`: a chunk is a number if it is a text of the grammar
    with a magnitude in the range of floats, namely the nearest float with the sign
    of the text; otherwise it is a word.
-/
import ReversePolish.Proofs.Numeral
import ReversePolish.Proofs.Readback
import ReversePolish.Proofs.Scientific

namespace ReversePolish.Number

open Float.Model.UnpackedFloat (Sign)

/-! ## The grammar -/

inductive SignText : List Char → Sign → Prop
  | none : SignText [] .positive
  | plus : SignText ['+'] .positive
  | minus : SignText ['-'] .negative

/-- ASCII digits, with the number that they are in base ten. -/
inductive Digits : List Char → ℕ → Prop
  | nil : Digits [] 0
  | concat {cs n c} : Digits cs n → c.isDigit = true →
      Digits (cs ++ [c]) (10 * n + (c.toNat - '0'.toNat))

inductive MantissaText : List Char → ℚ → Prop
  | integer {whole n} : whole ≠ [] → Digits whole n → MantissaText whole n
  | decimal {whole fraction n k} : whole ≠ [] → Digits whole n → Digits fraction k →
      MantissaText (whole ++ '.' :: fraction) (n + k / 10 ^ fraction.length)
  | fraction {fraction k} : fraction ≠ [] → Digits fraction k →
      MantissaText ('.' :: fraction) (k / 10 ^ fraction.length)

inductive ExponentText : List Char → ℤ → Prop
  | none : ExponentText [] 0
  | some {mark sign s digits n} : mark = 'e' ∨ mark = 'E' → SignText sign s → digits ≠ [] →
      Digits digits n → ExponentText (mark :: (sign ++ digits)) (s.apply n)

/-- The text stands for the number with this sign and this magnitude. -/
inductive Denotes : List Char → Sign → ℚ → Prop
  | intro {sign mantissa exponent s v e} : SignText sign s → MantissaText mantissa v →
      ExponentText exponent e → Denotes (sign ++ mantissa ++ exponent) s (v * 10 ^ e)

namespace Literal

variable {cs whole fraction rest : List Char} {s : Sign} {n : ℕ} {e : ℤ} {v : ℚ}

/-! ## Digits -/

theorem digits_iff : Digits cs n ↔ (∀ c ∈ cs, c.isDigit = true) ∧ digitsValue cs = n := by
  constructor
  · intro h
    induction h with
    | nil => exact ⟨fun _ h => absurd h List.not_mem_nil, rfl⟩
    | @concat cs n c _ hc ih =>
      obtain ⟨hdigits, hvalue⟩ := ih
      refine ⟨fun d hd => ?_, ?_⟩
      · rcases List.mem_append.1 hd with hd | hd
        · exact hdigits d hd
        · rw [List.mem_singleton.1 hd]
          exact hc
      · rw [← hvalue]
        exact Nat.ofDigitChars_append 0
  · rintro ⟨hdigits, rfl⟩
    induction cs using List.reverseRecOn with
    | nil => exact .nil
    | append_singleton cs c ih =>
      have hcs := ih fun d hd => hdigits d (List.mem_append_left _ hd)
      have hc := hdigits c (List.mem_append_right _ (List.mem_singleton_self c))
      have hconcat := Digits.concat hcs hc
      have hvalue : digitsValue (cs ++ [c]) = 10 * digitsValue cs + (c.toNat - '0'.toNat) :=
        Nat.ofDigitChars_append 0
      rwa [hvalue]

theorem digits_of_isDigit (h : ∀ c ∈ cs, c.isDigit = true) : Digits cs (digitsValue cs) :=
  digits_iff.2 ⟨h, rfl⟩

/-- The digits after the point count as a fraction. -/
theorem digitsValue_div (whole fraction : List Char) :
    (digitsValue (whole ++ fraction) : ℚ) / 10 ^ fraction.length =
      digitsValue whole + digitsValue fraction / 10 ^ fraction.length := by
  have hvalue : digitsValue (whole ++ fraction) =
      10 ^ fraction.length * digitsValue whole + digitsValue fraction := by
    rw [digitsValue, Nat.ofDigitChars_append, Nat.ofDigitChars_eq_ofDigitChars_zero]
    rfl
  have hne : (10 : ℚ) ^ fraction.length ≠ 0 := pow_ne_zero _ (by decide)
  rw [hvalue, Nat.cast_add, Nat.cast_mul, Nat.cast_pow, Nat.cast_ofNat, add_div,
    mul_div_cancel_left₀ _ hne]

/-! ## Signs -/

theorem signText_readSign (cs : List Char) :
    ∃ sign, cs = sign ++ (readSign cs).2 ∧
      SignText sign (if (readSign cs).1 then .negative else .positive) := by
  unfold readSign
  split
  · exact ⟨['-'], rfl, .minus⟩
  · exact ⟨['+'], rfl, .plus⟩
  · exact ⟨[], rfl, .none⟩

/-- A sign is read before what has none. -/
theorem readSign_of_signText {sign : List Char} (h : SignText sign s)
    (hrest : readSign rest = (false, rest)) :
    ∃ negative, readSign (sign ++ rest) = (negative, rest) ∧
      (if negative then Sign.negative else .positive) = s := by
  cases h with
  | none => exact ⟨false, hrest, rfl⟩
  | plus => exact ⟨false, rfl, rfl⟩
  | minus => exact ⟨true, rfl, rfl⟩

/-! ## Exponents -/

theorem readExponent?_eq_some_iff : readExponent? cs = some e ↔ ExponentText cs e := by
  constructor
  · intro h
    match cs, h with
    | [], h =>
      cases h
      exact .none
    | mark :: cs, h =>
      obtain ⟨sign, hcs, hsign⟩ := signText_readSign cs
      simp only [readExponent?] at h
      split at h
      · next hexp =>
        obtain ⟨hmark, hne, hdigits⟩ := hexp
        have hvalue := digits_of_isDigit (List.all_eq_true.1 hdigits)
        have hexponent := ExponentText.some hmark hsign hne hvalue
        rw [← hcs] at hexponent
        rw [← Option.some.inj h]
        revert hexponent
        cases (readSign cs).1 <;> exact id
      · cases h
  · intro h
    cases h with
    | none => rfl
    | @some mark sign s digits n hmark hsign hne hdigits =>
      obtain ⟨hall, hvalue⟩ := digits_iff.1 hdigits
      have hrest : readSign (digits ++ []) = _ := readSign_digits hne hall
      rw [List.append_nil] at hrest
      obtain ⟨negative, hread, hs⟩ := readSign_of_signText hsign hrest
      simp only [readExponent?, hread]
      rw [if_pos ⟨hmark, hne, List.all_eq_true.2 hall⟩, hvalue]
      subst hs
      cases negative <;> rfl

/-! ## Mantissas -/

/-- What follows a mantissa: nothing, or the mark of an exponent. -/
def Ends (rest : List Char) : Prop :=
  rest = [] ∨ ∃ mark cs, rest = mark :: cs ∧ (mark = 'e' ∨ mark = 'E')

theorem ends_of_exponentText (h : ExponentText rest e) : Ends rest := by
  cases h with
  | none => exact Or.inl rfl
  | some hmark => exact Or.inr ⟨_, _, rfl, hmark⟩

theorem Ends.takeWhile_eq (h : Ends rest) (hall : ∀ c ∈ whole, c.isDigit = true) :
    (whole ++ rest).takeWhile Char.isDigit = whole ∧
      (whole ++ rest).dropWhile Char.isDigit = rest := by
  rw [List.takeWhile_append_of_pos hall, List.dropWhile_append_of_pos hall]
  rcases h with rfl | ⟨mark, cs, rfl, rfl | rfl⟩
  · exact ⟨List.append_nil whole, rfl⟩
  · exact ⟨List.append_nil whole, rfl⟩
  · exact ⟨List.append_nil whole, rfl⟩

/-- What `read?` reads as a mantissa. -/
structure Reads (cs whole fraction rest : List Char) : Prop where
  whole_eq : cs.takeWhile Char.isDigit = whole
  fraction_eq : readFraction (cs.dropWhile Char.isDigit) = (fraction, rest)
  ne_nil : whole ++ fraction ≠ []

theorem reads_of_ne_nil
    (h : cs.takeWhile Char.isDigit ++ (readFraction (cs.dropWhile Char.isDigit)).1 ≠ []) :
    Reads cs (cs.takeWhile Char.isDigit) (readFraction (cs.dropWhile Char.isDigit)).1
      (readFraction (cs.dropWhile Char.isDigit)).2 :=
  ⟨rfl, rfl, h⟩

theorem Ends.reads_whole (h : Ends rest) (hne : whole ≠ []) (hall : ∀ c ∈ whole, c.isDigit = true) :
    Reads (whole ++ rest) whole [] rest := by
  obtain ⟨htake, hdrop⟩ := h.takeWhile_eq hall
  refine ⟨htake, ?_, ?_⟩
  · rw [hdrop]
    rcases h with rfl | ⟨mark, cs, rfl, rfl | rfl⟩ <;> rfl
  · rwa [List.append_nil]

theorem Ends.reads_fraction (h : Ends rest) (hne : whole ++ fraction ≠ [])
    (hwhole : ∀ c ∈ whole, c.isDigit = true) (hfraction : ∀ c ∈ fraction, c.isDigit = true) :
    Reads (whole ++ '.' :: fraction ++ rest) whole fraction rest := by
  obtain ⟨htake, hdrop⟩ := h.takeWhile_eq hfraction
  rw [List.append_assoc, List.cons_append]
  refine ⟨?_, ?_, hne⟩
  · rw [List.takeWhile_append_of_pos hwhole]
    exact List.append_nil whole
  · rw [List.dropWhile_append_of_pos hwhole]
    exact Prod.ext htake hdrop

/-- The text of a mantissa is read up to its end. -/
theorem exists_reads {mantissa : List Char} (h : MantissaText mantissa v) (hrest : Ends rest) :
    ∃ whole fraction, Reads (mantissa ++ rest) whole fraction rest ∧
      v = digitsValue (whole ++ fraction) / 10 ^ fraction.length := by
  cases h with
  | @integer whole n hne hwhole =>
    obtain ⟨hall, rfl⟩ := digits_iff.1 hwhole
    refine ⟨mantissa, [], hrest.reads_whole hne hall, ?_⟩
    rw [List.append_nil, List.length_nil, pow_zero, div_one]
  | @decimal whole fraction n k hne hwhole hfraction =>
    obtain ⟨hall, rfl⟩ := digits_iff.1 hwhole
    obtain ⟨hall', rfl⟩ := digits_iff.1 hfraction
    exact ⟨whole, fraction, hrest.reads_fraction (by simp [hne]) hall hall',
      (digitsValue_div whole fraction).symm⟩
  | @fraction fraction k hne hfraction =>
    obtain ⟨hall, rfl⟩ := digits_iff.1 hfraction
    have hnone : ∀ c ∈ ([] : List Char), c.isDigit = true := fun c hc => absurd hc List.not_mem_nil
    exact ⟨[], fraction, @Ends.reads_fraction [] fraction rest hrest hne hnone hall, rfl⟩

theorem mantissaText_of_ne_nil (hne : whole ++ fraction ≠ [])
    (hwhole : ∀ c ∈ whole, c.isDigit = true) (hfraction : ∀ c ∈ fraction, c.isDigit = true) :
    MantissaText (whole ++ '.' :: fraction)
      (digitsValue (whole ++ fraction) / 10 ^ fraction.length) := by
  rw [digitsValue_div]
  rcases whole.eq_nil_or_concat with rfl | ⟨whole, c, rfl⟩
  · have hzero : (digitsValue [] : ℚ) = 0 := rfl
    rw [hzero, zero_add]
    exact .fraction hne (digits_of_isDigit hfraction)
  · exact .decimal (by simp) (digits_of_isDigit hwhole) (digits_of_isDigit hfraction)

/-- A mantissa is read from a text of the grammar. -/
theorem Reads.mantissaText (h : Reads cs whole fraction rest) :
    ∃ mantissa, cs = mantissa ++ rest ∧
      MantissaText mantissa (digitsValue (whole ++ fraction) / 10 ^ fraction.length) := by
  obtain ⟨hwhole, hfraction, hne⟩ := h
  have hsplit : cs = whole ++ cs.dropWhile Char.isDigit := by
    rw [← hwhole, List.takeWhile_append_dropWhile]
  have hall : ∀ c ∈ whole, c.isDigit = true := fun c hc => List.mem_takeWhile_imp (hwhole ▸ hc)
  generalize cs.dropWhile Char.isDigit = dropped at hfraction hsplit
  subst hsplit
  unfold readFraction at hfraction
  split at hfraction
  · next cs =>
    obtain ⟨rfl, rfl⟩ := Prod.mk.inj hfraction
    refine ⟨_, ?_, mantissaText_of_ne_nil hne hall fun c hc => List.mem_takeWhile_imp hc⟩
    rw [List.append_assoc, List.cons_append, List.takeWhile_append_dropWhile]
  · obtain ⟨rfl, rfl⟩ := Prod.mk.inj hfraction
    rw [List.append_nil] at hne
    refine ⟨whole, rfl, ?_⟩
    rw [List.append_nil, List.length_nil, pow_zero, div_one]
    exact .integer hne (digits_of_isDigit hall)

/-- A mantissa has no sign. -/
theorem readSign_mantissaText {mantissa : List Char} (h : MantissaText mantissa v)
    (rest : List Char) : readSign (mantissa ++ rest) = (false, mantissa ++ rest) := by
  cases h with
  | integer hne hwhole => exact readSign_digits hne (digits_iff.1 hwhole).1
  | decimal hne hwhole =>
    rw [List.append_assoc]
    exact readSign_digits hne (digits_iff.1 hwhole).1
  | fraction => rfl

/-! ## Literals -/

theorem toRat_eq (whole fraction : List Char) (e : ℤ) :
    (⟨digitsValue (whole ++ fraction), e - fraction.length⟩ : Decimal).toRat =
      digitsValue (whole ++ fraction) / 10 ^ fraction.length * 10 ^ e := by
  have hten : (10 : ℚ) ≠ 0 := by decide
  rw [Decimal.toRat, sub_eq_add_neg, zpow_add₀ hten, zpow_neg, zpow_natCast, div_mul_eq_mul_div,
    div_eq_mul_inv, mul_assoc]

/-- **Literals** are read from texts of the grammar. -/
theorem denotes_of_read? {literal : Literal} (h : read? cs = some literal) :
    Denotes cs literal.sign literal.magnitude.toRat := by
  obtain ⟨sign, hcs, hsign⟩ := signText_readSign cs
  simp only [read?] at h
  split at h
  · cases h
  · next hne =>
    obtain ⟨exponent, hexponent, rfl⟩ := Option.map_eq_some_iff.1 h
    obtain ⟨mantissa, hrest, hmantissa⟩ := (reads_of_ne_nil hne).mantissaText
    have hdenotes := Denotes.intro hsign hmantissa (readExponent?_eq_some_iff.1 hexponent)
    rw [List.append_assoc, ← hrest, ← hcs] at hdenotes
    rw [toRat_eq]
    exact hdenotes

/-- **Texts of the grammar** are read as literals. -/
theorem exists_read? (h : Denotes cs s v) :
    ∃ literal, read? cs = some literal ∧ literal.sign = s ∧ literal.magnitude.toRat = v := by
  cases h with
  | @intro sign mantissa exponent s v e hsign hmantissa hexponent =>
    have hrest := readSign_mantissaText hmantissa exponent
    obtain ⟨negative, hread, hs⟩ := readSign_of_signText hsign hrest
    obtain ⟨whole, fraction, hreads, hv⟩ := exists_reads hmantissa (ends_of_exponentText hexponent)
    refine ⟨⟨negative, ⟨digitsValue (whole ++ fraction), e - fraction.length⟩⟩, ?_, hs, ?_⟩
    · rw [List.append_assoc, read?, hread]
      dsimp only
      rw [hreads.whole_eq, hreads.fraction_eq]
      dsimp only
      rw [if_neg hreads.ne_nil, readExponent?_eq_some_iff.2 hexponent]
      rfl
    · rw [toRat_eq, hv]

end Literal

open Literal (IsMark)

/-! ## Chunks -/

variable {text : String} {cs : List Char} {s s' : Sign} {v v' : ℚ} {x : Float}

/-- A text stands for one number only. -/
theorem Denotes.unique (h : Denotes cs s v) (h' : Denotes cs s' v') : s = s' ∧ v = v' := by
  obtain ⟨literal, hread, rfl, rfl⟩ := Literal.exists_read? h
  obtain ⟨literal', hread', rfl, rfl⟩ := Literal.exists_read? h'
  rw [hread] at hread'
  cases hread'
  exact ⟨rfl, rfl⟩

/-- The text stands for a number that is rounded to a finite float. -/
def InRange (text : String) : Prop :=
  ∃ s v, Denotes text.toList s v ∧ v < limit

theorem ofChunk_of_inRange (h : InRange text) : ∃ x, Token.ofChunk text = .number x := by
  obtain ⟨s, v, hdenotes, hlimit⟩ := h
  obtain ⟨literal, hread, rfl, rfl⟩ := Literal.exists_read? hdenotes
  have hfinite := literal.rounds_toFloat.isFinite_iff.2 hlimit
  refine ⟨literal.toFloat, ?_⟩
  rw [Token.ofChunk, hread]
  exact if_pos hfinite

theorem ofChunk_of_not_inRange (h : ¬InRange text) : Token.ofChunk text = .word text := by
  rw [Token.ofChunk]
  rcases hread : Literal.read? text.toList with - | literal
  · rfl
  · refine if_neg fun hfinite => h ?_
    exact ⟨_, _, Literal.denotes_of_read? hread, literal.rounds_toFloat.isFinite_iff.1 hfinite⟩

theorem inRange_of_ofChunk (h : Token.ofChunk text = .number x) : InRange text := by
  by_contra hrange
  rw [ofChunk_of_not_inRange hrange] at h
  cases h

/-- A number is the nearest to the one that the text stands for. -/
theorem nearest_of_ofChunk (h : Token.ofChunk text = .number x) (hv : Denotes text.toList s v) :
    Nearest (signed s v) x ∧ signOf x = s := by
  obtain ⟨literal, hread, rfl, rfl⟩ := Literal.exists_read? hv
  have hrounds := literal.rounds_toFloat
  rw [Token.ofChunk, hread] at h
  dsimp only at h
  by_cases hfinite : literal.toFloat.isFinite = true
  · rw [if_pos hfinite] at h
    obtain rfl := Token.number.inj h
    have hlimit := hrounds.isFinite_iff.1 hfinite
    exact ⟨hrounds.nearest hlimit, hrounds.signOf_eq hlimit⟩
  · rw [if_neg hfinite] at h
    cases h

/-- **What a text stands for** decides whether it is a number, and which one. -/
theorem ofChunk_eq_number_iff (hv : Denotes text.toList s v) :
    Token.ofChunk text = .number x ↔ v < limit ∧ Nearest (signed s v) x ∧ signOf x = s := by
  constructor
  · intro h
    obtain ⟨s', v', hv', hlimit⟩ := inRange_of_ofChunk h
    obtain ⟨-, rfl⟩ := hv.unique hv'
    exact ⟨hlimit, nearest_of_ofChunk h hv⟩
  · rintro ⟨hlimit, hnearest, hsign⟩
    obtain ⟨y, hy⟩ := ofChunk_of_inRange ⟨s, v, hv, hlimit⟩
    obtain ⟨hnearest', hsign'⟩ := nearest_of_ofChunk hy hv
    rw [hy, hnearest'.eq hnearest (hsign'.trans hsign.symm)]

/-- Texts that no number is written as. -/
inductive Foreign : String → Prop
  | empty : Foreign ""
  | mark {text c} : c ∈ text.toList → ¬IsMark c → Foreign text
  /-- The names of infinities and NaN, in letters of any case. -/
  | name {text sign name} : sign ∈ ["", "+", "-"] → name ∈ ["inf", "infinity", "nan"] →
      text.toList.map Char.toLower = (sign ++ name).toList → Foreign text
  | operation (operation : Operation) : Foreign operation.name

theorem ofChunk_of_not_isMark {c : Char} (hmem : c ∈ text.toList) (hc : ¬IsMark c) :
    Token.ofChunk text = .word text := by
  rw [Token.ofChunk]
  rcases hread : Literal.read? text.toList with - | literal
  · rfl
  · exact absurd (Literal.isMark_of_read? hread c hmem) hc

theorem not_isMark_of_toLower {c : Char} (h : c.toLower = 'n') : ¬IsMark c := by
  rintro (hdigit | hmark)
  · have hsame : c.toLower = c := by
      simp only [Char.isDigit, Bool.and_eq_true, decide_eq_true_eq] at hdigit
      have hle : c.val ≤ 57 := hdigit.2
      refine dif_neg fun hupper => ?_
      have hge : 65 ≤ c.val := hupper.1
      exact absurd (UInt32.le_trans hge hle) (by decide)
    rw [hsame] at h
    rw [h] at hdigit
    cases hdigit
  · simp only [List.mem_cons, List.not_mem_nil, or_false] at hmark
    rcases hmark with rfl | rfl | rfl | rfl | rfl <;> exact absurd h (by decide)

theorem ofChunk_of_foreign (h : Foreign text) : Token.ofChunk text = .word text := by
  cases h with
  | empty => rfl
  | mark hmem hc => exact ofChunk_of_not_isMark hmem hc
  | @name text sign name hsign hname heq =>
    have hmem : 'n' ∈ (sign ++ name).toList := by
      simp only [List.mem_cons, List.not_mem_nil, or_false] at hsign hname
      rcases hsign with rfl | rfl | rfl <;> rcases hname with rfl | rfl | rfl <;> decide
    rw [← heq] at hmem
    obtain ⟨c, hc, hlower⟩ := List.mem_map.1 hmem
    exact ofChunk_of_not_isMark hc (not_isMark_of_toLower hlower)
  | operation operation => exact operation.ofChunk_name

/-- **A chunk** is a number exactly if it is a text of the grammar and in the range of
    floats: the float nearest to what it stands for, with the sign that it is written
    with.  A text stands for one number only, and there is only one such float.  Any
    other chunk is a word. -/
theorem ofChunk_reads_numbers (text : String) :
    ((∃ x, Token.ofChunk text = .number x) ↔ InRange text) ∧
    (∀ x s v, Token.ofChunk text = .number x → Denotes text.toList s v →
      Nearest (signed s v) x ∧ signOf x = s) ∧
    (∀ s v s' v', Denotes text.toList s v → Denotes text.toList s' v' → s = s' ∧ v = v') ∧
    (∀ x s v, Denotes text.toList s v →
      (Token.ofChunk text = .number x ↔ v < limit ∧ Nearest (signed s v) x ∧ signOf x = s)) ∧
    (¬InRange text → Token.ofChunk text = .word text) ∧
    (Foreign text → Token.ofChunk text = .word text) := by
  refine ⟨⟨?_, ofChunk_of_inRange⟩, fun x s v => nearest_of_ofChunk, ?_, ?_,
    ofChunk_of_not_inRange, ofChunk_of_foreign⟩
  · rintro ⟨x, hx⟩
    exact inRange_of_ofChunk hx
  · intro s v s' v' hv hv'
    exact hv.unique hv'
  · intro x s v hv
    exact ofChunk_eq_number_iff hv

example : Token.ofChunk "5." = .number 5.0 := by decide
example : Token.ofChunk "-.e1" = .word "-.e1" := by decide
example : Token.ofChunk "1e309" = .word "1e309" := by decide +kernel

end ReversePolish.Number

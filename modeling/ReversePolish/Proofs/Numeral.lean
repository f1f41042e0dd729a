/-
  The chunks that numbers and operations are written as.

  * `Numeral` is a text that stands for a number;
  * `Number.Literal.isMark_of_read?`: a literal consists of digits, signs, a
    point and the mark of an exponent;
  * `Numeral.isChunk` and `Operation.isChunk_name`: neither numerals nor the
    names of operations have blanks;
  * `Operation.ofChunk_name`: a name is no number.
-/
import ReversePolish.Operation.Basic
import ReversePolish.Proofs.Spacing

namespace ReversePolish

open Text (isBlank IsChunk)

namespace Number.Literal

/-- A character of literals. -/
def IsMark (c : Char) : Prop :=
  c.isDigit = true ∨ c ∈ ['+', '-', '.', 'e', 'E']

theorem isBlank_of_isMark {c : Char} (h : IsMark c) : isBlank c = false := by
  rcases h with h | h
  · simp only [Char.isDigit, Bool.and_eq_true, decide_eq_true_eq, ge_iff_le,
      UInt32.le_iff_toNat_le] at h
    have hlow : 48 ≤ c.toNat := h.1
    have hhigh : c.toNat ≤ 57 := h.2
    simp only [isBlank, Text.blankRanges, List.any_cons, List.any_nil, Bool.or_eq_false_iff,
      Bool.and_eq_false_iff, decide_eq_false_iff_not, and_true]
    omega
  · simp only [List.mem_cons, List.not_mem_nil, or_false] at h
    rcases h with rfl | rfl | rfl | rfl | rfl <;> decide

theorem mem_readSign {c : Char} {cs : List Char} (h : c ∈ cs) :
    IsMark c ∨ c ∈ (readSign cs).2 := by
  unfold readSign
  split
  · rcases List.mem_cons.1 h with rfl | h
    · exact Or.inl (Or.inr (by simp))
    · exact Or.inr h
  · rcases List.mem_cons.1 h with rfl | h
    · exact Or.inl (Or.inr (by simp))
    · exact Or.inr h
  · exact Or.inr h

theorem mem_readDigits {c : Char} {cs : List Char} (h : c ∈ cs) :
    IsMark c ∨ c ∈ cs.dropWhile Char.isDigit := by
  rw [← List.takeWhile_append_dropWhile (p := Char.isDigit) (l := cs)] at h
  rcases List.mem_append.1 h with h | h
  · exact Or.inl (Or.inl (List.mem_takeWhile_imp h))
  · exact Or.inr h

theorem mem_readFraction {c : Char} {cs : List Char} (h : c ∈ cs) :
    IsMark c ∨ c ∈ (readFraction cs).2 := by
  unfold readFraction
  split
  · rcases List.mem_cons.1 h with rfl | h
    · exact Or.inl (Or.inr (by simp))
    · exact mem_readDigits h
  · exact Or.inr h

theorem mem_readExponent {c : Char} {cs : List Char} {exponent : Int}
    (hread : readExponent? cs = some exponent) (h : c ∈ cs) : IsMark c := by
  cases cs with
  | nil => cases h
  | cons mark cs =>
    simp only [readExponent?] at hread
    split at hread
    · next hexp =>
      obtain ⟨hmark, -, hdigits⟩ := hexp
      rcases List.mem_cons.1 h with rfl | h
      · rcases hmark with rfl | rfl <;> exact Or.inr (by simp)
      · rcases mem_readSign h with h | h
        · exact h
        · exact Or.inl (List.all_eq_true.1 hdigits c h)
    · cases hread

/-- **A literal** has only characters of literals. -/
theorem isMark_of_read? {cs : List Char} {literal : Literal} (hread : read? cs = some literal) :
    ∀ c ∈ cs, IsMark c := by
  intro c h
  simp only [read?] at hread
  split at hread
  · cases hread
  · obtain ⟨exponent, hexp, -⟩ := Option.map_eq_some_iff.1 hread
    rcases mem_readSign h with h | h
    · exact h
    rcases mem_readDigits h with h | h
    · exact h
    rcases mem_readFraction h with h | h
    · exact h
    exact mem_readExponent hexp h

end Number.Literal

/-! ## Numerals -/

/-- A text that stands for a number. -/
structure Numeral where
  text : String
  value : Float
  ofChunk_text : Token.ofChunk text = .number value

theorem Numeral.isChunk (numeral : Numeral) : IsChunk numeral.text := by
  have h := numeral.ofChunk_text
  unfold Token.ofChunk at h
  split at h
  · next literal hread =>
    refine ⟨?_, fun c hc => ?_⟩
    · intro hnil
      rw [hnil] at hread
      cases hread
    · exact Number.Literal.isBlank_of_isMark (Number.Literal.isMark_of_read? hread c hc)
  · cases h

namespace Operation

theorem isChunk_name (operation : Operation) : IsChunk operation.name := by
  apply Text.isChunk_of_all
  · cases operation <;> simp [name]
  · cases operation <;> rfl

theorem ofChunk_name (operation : Operation) :
    Token.ofChunk operation.name = .word operation.name := by
  cases operation <;> rfl

end Operation

end ReversePolish

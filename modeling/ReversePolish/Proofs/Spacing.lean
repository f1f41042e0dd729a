/-
  Texts that are chunks with blanks between them.

  * `Text.Spaced` says that a text holds given chunks, in their order, with
    blanks between any two and any blanks at the ends;
  * `Token.all_of_spaced`: the tokens of such a text are those of its chunks;
  * `Token.all_intercalate`: the same for chunks with a space between any two.
-/
import Mathlib.Data.List.TakeWhile
import ReversePolish.Token.Stream

namespace ReversePolish

namespace Text

/-- A chunk has characters, none of them blank. -/
def IsChunk (chunk : String) : Prop :=
  chunk.toList ≠ [] ∧ ∀ c ∈ chunk.toList, isBlank c = false

/-- A gap has only blanks, or nothing at all. -/
def IsGap (cs : List Char) : Prop :=
  ∀ c ∈ cs, isBlank c = true

/-- The characters are the chunks, in their order, with a gap that is not empty
    between any two of them. -/
inductive Joined : (chunks : List String) → (cs : List Char) → Prop
  | nil : Joined [] []
  | one (chunk : String) : Joined [chunk] chunk.toList
  | cons {chunks cs} (chunk : String) (gap : List Char) : gap ≠ [] → IsGap gap →
      Joined chunks cs → Joined (chunk :: chunks) (chunk.toList ++ (gap ++ cs))

/-- The text has the chunks, in their order, with blanks between them and any
    blanks at the ends. -/
def Spaced (chunks : List String) (text : String) : Prop :=
  ∃ front body back, IsGap front ∧ Joined chunks body ∧ IsGap back ∧
    text.toList = front ++ (body ++ back)

theorem isChunk_of_all {chunk : String} (hne : chunk.toList ≠ [])
    (h : chunk.toList.all (!isBlank ·) = true) : IsChunk chunk :=
  ⟨hne, fun c hc => by simpa using List.all_eq_true.1 h c hc⟩

theorem isGap_of_all {cs : List Char} (h : cs.all isBlank = true) : IsGap cs :=
  List.all_eq_true.1 h

theorem IsGap.head {gap : List Char} (h : IsGap gap) (hne : gap ≠ []) (cs : List Char) :
    ∀ c ∈ (gap ++ cs).head?, isBlank c = true := by
  intro c hc
  obtain ⟨b, bs, rfl⟩ := List.exists_cons_of_ne_nil hne
  cases hc
  exact h c (by simp)

/-- A space between any two chunks is a gap. -/
theorem joined_intercalate (chunks : List String) :
    Joined chunks (" ".intercalate chunks).toList := by
  induction chunks with
  | nil => exact .nil
  | cons chunk chunks ih =>
    cases chunks with
    | nil =>
      rw [String.intercalate_singleton]
      exact .one chunk
    | cons next chunks =>
      rw [String.intercalate_cons_cons, String.toList_append, String.toList_append,
        List.append_assoc]
      exact .cons chunk [' '] (by simp) (isGap_of_all rfl) ih

theorem spaced_intercalate (chunks : List String) : Spaced chunks (" ".intercalate chunks) :=
  ⟨[], _, [], isGap_of_all rfl, joined_intercalate chunks, isGap_of_all rfl,
    (List.append_nil _).symm⟩

end Text

namespace Token

open Text (isBlank IsChunk IsGap Joined Spaced)

namespace Stream

@[simp] theorem tokens_none (rest : List Char) : tokens ⟨none, rest⟩ = [] := by
  rw [tokens]
  rfl

@[simp] theorem tokens_some (chunk : String) (rest : List Char) :
    tokens ⟨some chunk, rest⟩ = .ofChunk chunk :: (ofChars rest).tokens := by
  rw [tokens]
  rfl

theorem ofChars_gap {gap : List Char} (h : IsGap gap) : ofChars gap = ⟨none, []⟩ := by
  rw [ofChars, List.dropWhile_eq_nil_iff.2 h]

/-- The stream reads the first chunk ahead, up to a blank or the end. -/
theorem ofChars_chunk {gap : List Char} {chunk : String} {rest : List Char} (hgap : IsGap gap)
    (hchunk : IsChunk chunk) (hrest : ∀ c ∈ rest.head?, isBlank c = true) :
    ofChars (gap ++ (chunk.toList ++ rest)) = ⟨some chunk, rest⟩ := by
  obtain ⟨hne, hfull⟩ := hchunk
  obtain ⟨c, cs, hcs⟩ := List.exists_cons_of_ne_nil hne
  rw [hcs] at hfull
  have hc : isBlank c = false := hfull c (by simp)
  have hfull' : ∀ c ∈ cs, (!isBlank c) = true := fun c hc => by simp [hfull c (by simp [hc])]
  have hdrop : (gap ++ (chunk.toList ++ rest)).dropWhile isBlank = c :: (cs ++ rest) := by
    rw [List.dropWhile_append_of_pos hgap, hcs, List.cons_append,
      List.dropWhile_cons_of_neg (by simp [hc])]
  have hend : rest.takeWhile (!isBlank ·) = [] ∧ rest.dropWhile (!isBlank ·) = rest := by
    cases rest with
    | nil => exact ⟨rfl, rfl⟩
    | cons b bs => simp [hrest b (by simp)]
  rw [ofChars, hdrop]
  simp only [List.takeWhile_append_of_pos hfull', List.dropWhile_append_of_pos hfull', hend,
    List.append_nil]
  rw [← hcs, String.ofList_toList]

end Stream

theorem tokens_of_joined {chunks : List String} (hchunks : ∀ chunk ∈ chunks, IsChunk chunk)
    {body back : List Char} (hbody : Joined chunks body) (hback : IsGap back) {front : List Char}
    (hfront : IsGap front) :
    (Stream.ofChars (front ++ (body ++ back))).tokens = chunks.map ofChunk := by
  induction hbody generalizing front with
  | nil =>
    have hgap : IsGap (front ++ ([] ++ back)) := by
      intro c hc
      rcases List.mem_append.1 hc with hc | hc
      · exact hfront c hc
      · exact hback c hc
    rw [Stream.ofChars_gap hgap]
    simp
  | one chunk =>
    have hrest : ∀ c ∈ back.head?, isBlank c = true := fun c hc => hback c (List.mem_of_head? hc)
    rw [Stream.ofChars_chunk hfront (hchunks chunk (by simp)) hrest]
    simp [Stream.ofChars_gap hback]
  | cons chunk gap hne hgap _ ih =>
    rw [List.append_assoc, List.append_assoc,
      Stream.ofChars_chunk hfront (hchunks chunk (by simp)) (hgap.head hne _)]
    simp [ih (fun chunk h => hchunks chunk (by simp [h])) hgap]

/-- **Scanning undoes spacing**: the tokens of a text with these chunks. -/
theorem all_of_spaced {chunks : List String} (hchunks : ∀ chunk ∈ chunks, IsChunk chunk)
    {text : String} (h : Spaced chunks text) : all text = chunks.map ofChunk := by
  obtain ⟨front, body, back, hfront, hbody, hback, ht⟩ := h
  rw [all, Stream.ofText, ht]
  exact tokens_of_joined hchunks hbody hback hfront

theorem all_intercalate {chunks : List String} (hchunks : ∀ chunk ∈ chunks, IsChunk chunk) :
    all (" ".intercalate chunks) = chunks.map ofChunk :=
  all_of_spaced hchunks (Text.spaced_intercalate chunks)

end Token

end ReversePolish

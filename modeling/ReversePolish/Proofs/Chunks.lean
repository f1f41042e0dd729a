/-
  The chunks of a text: its longest runs of characters that are not blank.

  * `Text.chunks` are the pieces of a text between its blanks, without the
    empty ones;
  * `Text.spaced_chunks` and `Text.chunks_of_spaced`: a text holds its chunks,
    with blanks between them and at the ends, and holds no others;
  * `Text.chunks_append` and `Text.chunks_trim`: how the chunks of texts go
    together, and what blanks at the ends matter;
  * `Token.Stream.readsAhead_ofChars`: what a stream reads ahead;
  * `Token.all_eq_map`: the tokens of a text are those of its chunks.
-/
import Mathlib.Data.List.TakeWhile
import ReversePolish.Proofs.Spacing

namespace ReversePolish

namespace Text

/-! ## Pieces of characters -/

/-- The pieces of the characters between the blanks, without the empty ones. -/
def pieces (cs : List Char) : List (List Char) :=
  (cs.splitOnP isBlank).filter (!·.isEmpty)

/-- The chunks of the text. -/
def chunks (text : String) : List String :=
  (pieces text.toList).map .ofList

theorem IsGap.append {gap gap' : List Char} (h : IsGap gap) (h' : IsGap gap') :
    IsGap (gap ++ gap') := by
  intro c hc
  rcases List.mem_append.1 hc with hc | hc
  · exact h c hc
  · exact h' c hc

theorem pieces_run {run : List Char} (hne : run ≠ []) (hfull : ∀ c ∈ run, isBlank c = false) :
    pieces run = [run] := by
  rw [pieces, List.splitOnP_eq_singleton hfull]
  simpa using hne

theorem pieces_append_blank (cs : List Char) {b : Char} (hb : isBlank b = true)
    (cs' : List Char) : pieces (cs ++ b :: cs') = pieces cs ++ pieces cs' := by
  rw [pieces, List.splitOnP_append_cons cs cs' hb, List.filter_append, pieces, pieces]

theorem pieces_gap {gap : List Char} (h : IsGap gap) (cs : List Char) :
    pieces (gap ++ cs) = pieces cs := by
  induction gap with
  | nil => rfl
  | cons b gap ih =>
    have hb : isBlank b = true := h b (by simp)
    calc pieces (b :: (gap ++ cs)) = pieces [] ++ pieces (gap ++ cs) :=
          pieces_append_blank [] hb (gap ++ cs)
      _ = pieces cs := ih fun c hc => h c (by simp [hc])

/-- **A gap separates**: the pieces on its left and those on its right. -/
theorem pieces_append_gap (cs : List Char) {gap : List Char} (h : IsGap gap) (hne : gap ≠ [])
    (cs' : List Char) : pieces (cs ++ (gap ++ cs')) = pieces cs ++ pieces cs' := by
  obtain ⟨b, gap, rfl⟩ := List.exists_cons_of_ne_nil hne
  rw [List.cons_append, pieces_append_blank cs (h b (by simp)),
    pieces_gap fun c hc => h c (by simp [hc])]

/-- A gap at the end has no pieces. -/
theorem pieces_gap_end (cs : List Char) {gap : List Char} (h : IsGap gap) :
    pieces (cs ++ gap) = pieces cs := by
  rcases eq_or_ne gap [] with rfl | hne
  · rw [List.append_nil]
  · have happ := pieces_append_gap cs h hne []
    rwa [List.append_nil, show pieces [] = [] from rfl, List.append_nil] at happ

/-- A run of characters up to a blank, or the end, is a piece. -/
theorem pieces_run_append {run rest : List Char} (hne : run ≠ [])
    (hfull : ∀ c ∈ run, isBlank c = false) (hrest : ∀ c ∈ rest.head?, isBlank c = true) :
    pieces (run ++ rest) = run :: pieces rest := by
  cases rest with
  | nil => rw [List.append_nil, pieces_run hne hfull]; rfl
  | cons b rest =>
    have hb : isBlank b = true := hrest b rfl
    have hrest' : pieces (b :: rest) = pieces rest := pieces_append_blank [] hb rest
    rw [pieces_append_blank run hb, pieces_run hne hfull, hrest', List.singleton_append]

/-- The first chunk of characters, behind any gap. -/
theorem pieces_chunk {gap rest : List Char} {chunk : String} (hgap : IsGap gap)
    (hchunk : IsChunk chunk) (hrest : ∀ c ∈ rest.head?, isBlank c = true) :
    (pieces (gap ++ (chunk.toList ++ rest))).map String.ofList =
      chunk :: (pieces rest).map .ofList := by
  rw [pieces_gap hgap, pieces_run_append hchunk.1 hchunk.2 hrest, List.map_cons,
    String.ofList_toList]

end Text

/-! ## What a stream reads ahead -/

namespace Token.Stream

open Text (isBlank IsChunk IsGap pieces)

/-- What a stream that starts on the characters `cs` has read ahead. -/
inductive ReadsAhead : (cs : List Char) → Stream → Prop
  | nothing {gap : List Char} : IsGap gap → ReadsAhead gap ⟨none, []⟩
  | chunk {gap rest : List Char} {chunk : String} : IsGap gap → IsChunk chunk →
      (∀ c ∈ rest.head?, isBlank c = true) →
      ReadsAhead (gap ++ (chunk.toList ++ rest)) ⟨some chunk, rest⟩

theorem isBlank_of_head?_dropWhile {cs : List Char} :
    ∀ c ∈ (cs.dropWhile (!isBlank ·)).head?, isBlank c = true := by
  intro c hc
  have hnot := List.head?_dropWhile_not (!isBlank ·) cs
  rw [Option.mem_def.1 hc] at hnot
  simpa using hnot

/-- **The first chunk** is read ahead, if there is one. -/
theorem readsAhead_ofChars (cs : List Char) : ReadsAhead cs (ofChars cs) := by
  have hgap : IsGap (cs.takeWhile isBlank) := fun c hc => List.mem_takeWhile_imp hc
  have hsplit := List.takeWhile_append_dropWhile (p := isBlank) (l := cs)
  rcases hdrop : cs.dropWhile isBlank with - | ⟨c, rest⟩
  · rw [hdrop, List.append_nil] at hsplit
    rw [← hsplit, ofChars_gap hgap]
    exact .nothing hgap
  · have hc : isBlank c = false := by
      have hnot := List.head?_dropWhile_not isBlank cs
      rwa [hdrop] at hnot
    have hchunk : IsChunk (.ofList (c :: rest.takeWhile (!isBlank ·))) := by
      rw [IsChunk, String.toList_ofList]
      refine ⟨List.cons_ne_nil _ _, fun d hd => ?_⟩
      rcases List.mem_cons.1 hd with rfl | hd
      · exact hc
      · simpa using List.mem_takeWhile_imp hd
    have hcs : cs = cs.takeWhile isBlank ++
        ((String.ofList (c :: rest.takeWhile (!isBlank ·))).toList ++
          rest.dropWhile (!isBlank ·)) := by
      rw [String.toList_ofList, List.cons_append, List.takeWhile_append_dropWhile, ← hdrop, hsplit]
    rw [hcs, ofChars_chunk hgap hchunk isBlank_of_head?_dropWhile]
    exact .chunk hgap hchunk isBlank_of_head?_dropWhile

/-- The chunks that a stream still goes through. -/
def chunks : Stream → List String
  | ⟨none, _⟩ => []
  | ⟨some chunk, rest⟩ => chunk :: (pieces rest).map .ofList

theorem chunks_ofChars (cs : List Char) : (ofChars cs).chunks = (pieces cs).map .ofList := by
  have hreads := readsAhead_ofChars cs
  generalize ofChars cs = stream at hreads
  cases hreads with
  | nothing hgap => rw [← List.append_nil cs, Text.pieces_gap hgap]; rfl
  | @chunk gap rest chunk hgap hchunk hrest =>
    rw [Text.pieces_chunk hgap hchunk hrest]
    rfl

theorem chunks_some (chunk : String) (rest : List Char) :
    chunks ⟨some chunk, rest⟩ = chunk :: (ofChars rest).chunks := by
  rw [chunks, chunks_ofChars]

theorem tokens_zero (stream : Stream) : stream.tokens[0]? = stream.next.1 := by
  obtain ⟨_ | chunk, rest⟩ := stream
  · simp [next]
  · simp [next]

theorem tokens_succ (stream : Stream) (count : Nat) :
    stream.tokens[count + 1]? = stream.next.2.tokens[count]? := by
  obtain ⟨_ | chunk, rest⟩ := stream
  · simp [next]
  · simp [next]

/-- The tokens that a stream still hands out are those of its chunks. -/
theorem tokens_eq_map (stream : Stream) : stream.tokens = stream.chunks.map ofChunk := by
  induction stream using tokens.induct with
  | case1 stream later h =>
    match stream, h with
    | ⟨none, rest⟩, _ => rw [tokens_none]; rfl
  | case2 stream token later h ih =>
    match stream, h with
    | ⟨some chunk, rest⟩, h =>
      cases h
      rw [tokens_some, chunks_some, List.map_cons, ih]

/-- Asking again and again gives the tokens, and then nothing any more. -/
theorem nexts_eq (stream : Stream) (count : Nat) :
    stream.nexts count =
      (stream.tokens.take count).map some ++
        List.replicate (count - stream.tokens.length) none := by
  induction count generalizing stream with
  | zero => simp [nexts]
  | succ count ih =>
    match stream with
    | ⟨none, rest⟩ =>
      have hnext : (next ⟨none, rest⟩) = (none, ⟨none, rest⟩) := rfl
      rw [nexts, hnext, ih, tokens_none]
      simp [List.replicate_succ]
    | ⟨some chunk, rest⟩ =>
      have hnext : (next ⟨some chunk, rest⟩) = (some (.ofChunk chunk), ofChars rest) := rfl
      rw [nexts, hnext, ih, tokens_some]
      simp

end Token.Stream

/-! ## The chunks of a text -/

theorem Token.all_eq_map (text : String) : all text = (Text.chunks text).map ofChunk := by
  rw [all, Stream.tokens_eq_map, Stream.ofText, Stream.chunks_ofChars]
  rfl

/-- A word is the chunk that it was read from. -/
theorem Token.eq_of_ofChunk {chunk word : String} (h : Token.ofChunk chunk = .word word) :
    word = chunk := by
  rw [Token.ofChunk] at h
  split at h
  · split at h <;> cases h
    rfl
  · cases h
    rfl

namespace Text

open Token.Stream (ReadsAhead readsAhead_ofChars)

/-- Characters are a gap, or have a first chunk, behind which a blank or nothing
    follows. -/
theorem chunkInduction {P : List Char → Prop} (gap : ∀ gap, IsGap gap → P gap)
    (chunk : ∀ gap chunk rest, IsGap gap → IsChunk chunk → (∀ c ∈ rest.head?, isBlank c = true) →
      P rest → P (gap ++ (chunk.toList ++ rest)))
    (cs : List Char) : P cs := by
  induction hn : cs.length using Nat.strong_induction_on generalizing cs with
  | _ n ih =>
    have hreads := readsAhead_ofChars cs
    generalize Token.Stream.ofChars cs = stream at hreads
    cases hreads with
    | nothing hgap => exact gap _ hgap
    | @chunk front rest first hgap hfirst hrest =>
      have hlen : rest.length < n := by
        have hpos : 0 < first.toList.length := List.length_pos_iff.2 hfirst.1
        rw [List.length_append, List.length_append] at hn
        omega
      exact chunk front first rest hgap hfirst hrest (ih _ hlen rest rfl)

theorem isChunk_of_mem_pieces (cs : List Char) :
    ∀ chunk ∈ (pieces cs).map String.ofList, IsChunk chunk := by
  induction cs using chunkInduction with
  | gap gap hgap =>
    rw [← List.append_nil gap, pieces_gap hgap]
    simp [pieces]
  | chunk gap chunk rest hgap hchunk hrest ih =>
    rw [pieces_chunk hgap hchunk hrest]
    exact List.forall_mem_cons.2 ⟨hchunk, ih⟩

/-- Chunks start with a character that is not blank. -/
theorem Joined.isBlank_head {chunks : List String} {body : List Char} (h : Joined chunks body)
    (hchunks : ∀ chunk ∈ chunks, IsChunk chunk) (hne : chunks ≠ []) :
    ∃ c cs, body = c :: cs ∧ isBlank c = false := by
  have hfirst : ∀ chunk ∈ chunks, ∀ cs, ∃ c cs', chunk.toList ++ cs = c :: cs' ∧
      isBlank c = false := by
    intro chunk hmem cs
    obtain ⟨hne, hfull⟩ := hchunks chunk hmem
    obtain ⟨c, cs', hc⟩ := List.exists_cons_of_ne_nil hne
    exact ⟨c, cs' ++ cs, by rw [hc, List.cons_append], hfull c (by simp [hc])⟩
  cases h with
  | nil => exact absurd rfl hne
  | one chunk => simpa using hfirst chunk (by simp) []
  | cons chunk gap => exact hfirst chunk (by simp) _

/-- **A text holds its chunks**, with blanks between them. -/
theorem spaced_chunks (text : String) : Spaced (chunks text) text := by
  rw [Spaced, chunks]
  induction text.toList using chunkInduction with
  | gap gap hgap =>
    refine ⟨gap, [], [], hgap, ?_, by simp [IsGap], by simp⟩
    rw [← List.append_nil gap, pieces_gap hgap]
    exact .nil
  | chunk gap chunk rest hgap hchunk hrest ih =>
    obtain ⟨front, body, back, hfront, hbody, hback, rfl⟩ := ih
    rw [pieces_chunk hgap hchunk hrest]
    generalize hchunks : (pieces (front ++ (body ++ back))).map String.ofList = chunks at hbody
    rcases eq_or_ne chunks [] with rfl | hne
    · cases hbody
      refine ⟨gap, chunk.toList, front ++ back, hgap, .one chunk, hfront.append hback, ?_⟩
      rw [List.nil_append]
    · -- the rest starts with a blank, so it does not start with its first chunk
      have hfront' : front ≠ [] := by
        rintro rfl
        obtain ⟨c, cs, rfl, hc⟩ :=
          hbody.isBlank_head (hchunks ▸ isChunk_of_mem_pieces _) hne
        exact absurd (hrest c rfl) (by simp [hc])
      refine ⟨gap, chunk.toList ++ (front ++ body), back, hgap, .cons chunk front hfront' hfront hbody,
        hback, ?_⟩
      simp only [List.append_assoc]

theorem pieces_of_joined {chunks : List String} {body : List Char} (h : Joined chunks body)
    (hchunks : ∀ chunk ∈ chunks, IsChunk chunk) : (pieces body).map String.ofList = chunks := by
  induction h with
  | nil => rfl
  | one chunk =>
    obtain ⟨hne, hfull⟩ := hchunks chunk (by simp)
    rw [pieces_run hne hfull, List.map_singleton, String.ofList_toList]
  | cons chunk gap hgap_ne hgap _ ih =>
    obtain ⟨hne, hfull⟩ := hchunks chunk (by simp)
    rw [pieces_append_gap _ hgap hgap_ne, pieces_run hne hfull, List.map_append,
      ih fun chunk h => hchunks chunk (by simp [h]), List.map_singleton, String.ofList_toList,
      List.singleton_append]

/-- A text that holds some chunks has no others. -/
theorem chunks_of_spaced {chunks' : List String} (hchunks : ∀ chunk ∈ chunks', IsChunk chunk)
    {text : String} (h : Spaced chunks' text) : chunks text = chunks' := by
  obtain ⟨front, body, back, hfront, hbody, hback, ht⟩ := h
  rw [chunks, ht, pieces_gap hfront, pieces_gap_end body hback, pieces_of_joined hbody hchunks]

/-! ## Texts put together -/

/-- **Texts with blanks between them** have the chunks of both. -/
theorem chunks_append {gap : String} (hgap : IsGap gap.toList) (hne : gap ≠ "")
    (text text' : String) : chunks (text ++ gap ++ text') = chunks text ++ chunks text' := by
  have hne' : gap.toList ≠ [] := by simpa using hne
  rw [chunks, String.toList_append, String.toList_append, List.append_assoc,
    pieces_append_gap _ hgap hne', List.map_append]
  rfl

theorem exists_gaps (cs : List Char) :
    ∃ front back, IsGap front ∧ IsGap back ∧ cs = front ++ (trimChars cs ++ back) := by
  refine ⟨cs.takeWhile isBlank, ((cs.dropWhile isBlank).reverse.takeWhile isBlank).reverse,
    fun c hc => List.mem_takeWhile_imp hc,
    fun c hc => List.mem_takeWhile_imp (List.mem_reverse.1 hc), ?_⟩
  rw [trimChars, ← List.reverse_append, List.takeWhile_append_dropWhile, List.reverse_reverse,
    List.takeWhile_append_dropWhile]

/-- Blanks at the ends make no difference. -/
theorem chunks_trim (text : String) : chunks (trim text) = chunks text := by
  obtain ⟨front, back, hfront, hback, hcs⟩ := exists_gaps text.toList
  have hpieces := congrArg pieces hcs
  rw [pieces_gap hfront, pieces_gap_end _ hback] at hpieces
  rw [chunks, chunks, trim, String.toList_ofList, hpieces]

end Text

end ReversePolish

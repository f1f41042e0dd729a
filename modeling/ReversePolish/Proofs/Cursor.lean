/-
  Scanning by byte offsets.

  A cursor goes through the UTF-8 form of a text.  It holds the offset of the
  first byte not yet read, and slices the text there: a slice exists only
  between two characters, or at an end of the text.

  * `Token.Cursor.next?` hands out a token; it is `none` where a slice does not
    exist;
  * `Token.Cursor.Follows` relates a cursor to the stream that is as far;
  * `Token.Cursor.Stands.advance?`: reading a chunk ahead finds all its slices;
  * `Token.scanning_chunks`: streams and cursors go through the chunks of a text,
    one after the other, and cursors never leave it.
-/
import Mathlib.Order.Monotone.Basic
import ReversePolish.Proofs.Chunks

namespace ReversePolish

open Text (isBlank)

/-! ## Slices -/

namespace Text

/-- The text from a byte offset on; there is none inside a character or behind
    the end. -/
def sliceFrom? (text : String) (offset : Nat) : Option String :=
  if h : String.Pos.Raw.IsValid text ⟨offset⟩ then
    some (text.sliceFrom (text.pos ⟨offset⟩ h)).copy
  else none

/-- The text up to a byte offset; there is none inside a character or behind
    the end. -/
def sliceTo? (text : String) (offset : Nat) : Option String :=
  if h : String.Pos.Raw.IsValid text ⟨offset⟩ then
    some (text.sliceTo (text.pos ⟨offset⟩ h)).copy
  else none

/-- The byte offset of the first blank. -/
def findBlank? : List Char → Option Nat
  | [] => none
  | c :: cs => if isBlank c then some 0 else (findBlank? cs).map (c.utf8Size + ·)

theorem isValid_append (text text' : String) :
    String.Pos.Raw.IsValid (text ++ text') ⟨text.utf8ByteSize⟩ :=
  String.Pos.Raw.isValid_iff_exists_append.2 ⟨text, text', rfl, rfl⟩

theorem splits_append (text text' : String) :
    ((text ++ text').pos ⟨text.utf8ByteSize⟩ (isValid_append text text')).Splits text text' :=
  ⟨rfl, rfl⟩

theorem sliceFrom?_append (text text' : String) :
    sliceFrom? (text ++ text') text.utf8ByteSize = some text' := by
  rw [sliceFrom?, dif_pos (isValid_append text text'),
    (String.Pos.splits _).eq_right (splits_append text text')]

theorem sliceTo?_append (text text' : String) :
    sliceTo? (text ++ text') text.utf8ByteSize = some text := by
  rw [sliceTo?, dif_pos (isValid_append text text'),
    (String.Pos.splits _).eq_left (splits_append text text')]

theorem findBlank?_append {run : List Char} (hfull : ∀ c ∈ run, isBlank c = false)
    (rest : List Char) :
    findBlank? (run ++ rest) =
      (findBlank? rest).map ((String.ofList run).utf8ByteSize + ·) := by
  induction run with
  | nil => simp
  | cons c run ih =>
    have hc : isBlank c = false := hfull c (by simp)
    have hsize : (String.ofList (c :: run)).utf8ByteSize =
        c.utf8Size + (String.ofList run).utf8ByteSize := by
      rw [← List.singleton_append, String.ofList_append, String.utf8ByteSize_append,
        ← String.singleton_eq_ofList, String.utf8ByteSize_singleton]
    rw [List.cons_append, findBlank?, if_neg (by simp [hc]), ih fun c h => hfull c (by simp [h]),
      Option.map_map, hsize]
    simp only [Function.comp_def, Nat.add_assoc]

/-- The first blank, or else the end, is behind the first run. -/
theorem findBlank?_getD {run rest : List Char} (hfull : ∀ c ∈ run, isBlank c = false)
    (hrest : ∀ c ∈ rest.head?, isBlank c = true) :
    (findBlank? (run ++ rest)).getD (String.ofList (run ++ rest)).utf8ByteSize =
      (String.ofList run).utf8ByteSize := by
  rw [findBlank?_append hfull]
  cases rest with
  | nil => simp [findBlank?]
  | cons b rest => simp [findBlank?, hrest b rfl]

end Text

/-! ## Cursors -/

namespace Token

/-- A cursor in a text. -/
structure Cursor where
  text : String
  /-- The token read ahead, if there is one. -/
  ahead : Option Token := none
  /-- The byte offset of what is not yet read. -/
  index : Nat := 0

namespace Cursor

open Text (IsGap IsChunk sliceFrom? sliceTo? findBlank?)

/-- What is not yet read. -/
def view? (cursor : Cursor) : Option String :=
  sliceFrom? cursor.text cursor.index

/-- Go on to the first character that is not blank. -/
def skipBlanks? (cursor : Cursor) : Option Cursor := do
  let view ← cursor.view?
  let trimmed := String.ofList (view.toList.dropWhile isBlank)
  return { cursor with index := cursor.index + (view.utf8ByteSize - trimmed.utf8ByteSize) }

/-- What stands before the next blank. -/
def chunk? (cursor : Cursor) : Option String := do
  let view ← cursor.view?
  sliceTo? view ((findBlank? view.toList).getD view.utf8ByteSize)

/-- Read the next token ahead. -/
def advance? (cursor : Cursor) : Option Cursor := do
  let cursor ← cursor.skipBlanks?
  let chunk ← cursor.chunk?
  return { cursor with
    ahead := if chunk = "" then none else some (ofChunk chunk)
    index := cursor.index + chunk.utf8ByteSize }

/-- The cursor that has just read ahead the first token of the text. -/
def ofText? (text : String) : Option Cursor :=
  advance? { text }

/-- The next token, if there is one, and the cursor after it. -/
def next? (cursor : Cursor) : Option (Option Token × Cursor) :=
  match cursor.ahead with
  | none => some (none, cursor)
  | some token => do
    let later ← cursor.advance?
    return (some token, later)

/-! ## Cursors and streams -/

/-- The cursor stands between `done` and `rest` in its text. -/
structure Stands (cursor : Cursor) (done : String) (rest : List Char) : Prop where
  text : cursor.text = done ++ .ofList rest
  index : cursor.index = done.utf8ByteSize

/-- The cursor `later` is not before `cursor`, in the same text, and stands
    between two characters or at an end. -/
structure Moves (cursor later : Cursor) : Prop where
  text : later.text = cursor.text
  index_le : cursor.index ≤ later.index
  isValid : String.Pos.Raw.IsValid later.text ⟨later.index⟩

variable {cursor later : Cursor} {done read : String} {rest rest' : List Char}

theorem Stands.isValid (h : cursor.Stands done rest) :
    String.Pos.Raw.IsValid cursor.text ⟨cursor.index⟩ := by
  rw [h.text, h.index]
  exact Text.isValid_append done _

theorem Stands.view? (h : cursor.Stands done rest) : cursor.view? = some (.ofList rest) := by
  rw [Cursor.view?, h.text, h.index, Text.sliceFrom?_append]

theorem Stands.moves (h : cursor.Stands done rest) (htext : later.text = cursor.text)
    (h' : later.Stands (done ++ read) rest') : cursor.Moves later where
  text := htext
  index_le := by
    rw [h.index, h'.index, String.utf8ByteSize_append]
    exact Nat.le_add_right _ _
  isValid := h'.isValid

/-- **The blanks** are skipped. -/
theorem Stands.skipBlanks? (h : cursor.Stands done rest) :
    ∃ skipped, cursor.skipBlanks? = some skipped ∧ skipped.text = cursor.text ∧
      skipped.Stands (done ++ .ofList (rest.takeWhile isBlank)) (rest.dropWhile isBlank) := by
  have hrest : String.ofList rest =
      .ofList (rest.takeWhile isBlank) ++ .ofList (rest.dropWhile isBlank) := by
    rw [← String.ofList_append, List.takeWhile_append_dropWhile]
  rw [Cursor.skipBlanks?, h.view?]
  refine ⟨_, rfl, rfl, ?_, ?_⟩
  · rw [String.append_assoc, ← hrest]
    exact h.text
  · simp only [String.toList_ofList]
    rw [h.index, hrest, String.utf8ByteSize_append, String.utf8ByteSize_append,
      Nat.add_sub_cancel]

theorem Stands.chunk? {run : List Char} (h : cursor.Stands done (run ++ rest))
    (hfull : ∀ c ∈ run, isBlank c = false) (hrest : ∀ c ∈ rest.head?, isBlank c = true) :
    cursor.chunk? = some (.ofList run) := by
  rw [Cursor.chunk?, h.view?]
  simp only [Option.bind_eq_bind, Option.bind_some, String.toList_ofList]
  rw [Text.findBlank?_getD hfull hrest, String.ofList_append, Text.sliceTo?_append]

/-- The cursor goes on to `later` by way of a position between two characters,
    behind the blanks. -/
def Advances (cursor later : Cursor) : Prop :=
  ∃ skipped, cursor.skipBlanks? = some skipped ∧ cursor.Moves skipped ∧ skipped.Moves later

/-- The cursor is as far in the text as the stream. -/
structure Follows (text : String) (cursor : Cursor) (stream : Stream) : Prop where
  text : cursor.text = text
  stands : ∃ done, cursor.Stands done stream.rest
  ahead : cursor.ahead = stream.ahead.map ofChunk

/-- The stream that starts on the characters `cs` has read ahead the run behind
    the blanks, unless it is empty. -/
theorem ofChars_eq (cs : List Char) :
    Stream.ofChars cs =
      ⟨if (cs.dropWhile isBlank).takeWhile (!isBlank ·) = [] then none
        else some (.ofList ((cs.dropWhile isBlank).takeWhile (!isBlank ·))),
        (cs.dropWhile isBlank).dropWhile (!isBlank ·)⟩ := by
  have hnot := List.head?_dropWhile_not isBlank cs
  rw [Stream.ofChars]
  rcases hdrop : cs.dropWhile isBlank with - | ⟨c, rest⟩
  · rfl
  · rw [hdrop] at hnot
    have hc : (!isBlank c) = true := by simpa using hnot
    simp only [List.takeWhile_cons, List.dropWhile_cons, if_pos hc, List.cons_ne_nil, if_false]

/-- **Reading ahead** finds all slices, and reads what a stream reads. -/
theorem Stands.advance? (h : cursor.Stands done rest) :
    ∃ later, cursor.advance? = some later ∧ cursor.Advances later ∧
      Follows cursor.text later (Stream.ofChars rest) := by
  obtain ⟨skipped, hskip, htext, hstands⟩ := h.skipBlanks?
  have hsplit := List.takeWhile_append_dropWhile (p := (!isBlank ·)) (l := rest.dropWhile isBlank)
  rw [ofChars_eq]
  generalize hrun : (rest.dropWhile isBlank).takeWhile (!isBlank ·) = run at hsplit ⊢
  generalize hlater : (rest.dropWhile isBlank).dropWhile (!isBlank ·) = rest' at hsplit ⊢
  rw [← hsplit] at hstands
  have hfull : ∀ c ∈ run, isBlank c = false := fun c hc => by
    rw [← hrun] at hc
    simpa using List.mem_takeWhile_imp hc
  have hchunk : skipped.chunk? = some (.ofList run) :=
    hstands.chunk? hfull (hlater ▸ Stream.isBlank_of_head?_dropWhile)
  let later : Cursor := { skipped with
    ahead := if String.ofList run = "" then none else some (ofChunk (.ofList run))
    index := skipped.index + (String.ofList run).utf8ByteSize }
  have hstands' : later.Stands (done ++ .ofList (rest.takeWhile isBlank) ++ .ofList run) rest' := by
    refine ⟨?_, ?_⟩
    · rw [String.append_assoc, ← String.ofList_append]
      exact hstands.text
    · rw [String.utf8ByteSize_append, ← hstands.index]
  refine ⟨later, ?_, ⟨skipped, hskip, h.moves htext hstands, hstands.moves rfl hstands'⟩, htext,
    ⟨_, hstands'⟩, ?_⟩
  · rw [Cursor.advance?, hskip]
    simp only [Option.bind_eq_bind, Option.bind_some, hchunk]
    rfl
  · have hempty : String.ofList run = "" ↔ run = [] := String.ofList_eq_empty_iff
    by_cases hnil : run = []
    · simp [later, hnil]
    · simp [later, hnil, hempty]

theorem exists_ofText? (text : String) :
    ∃ cursor, ofText? text = some cursor ∧ Advances { text } cursor ∧
      Follows text cursor (Stream.ofText text) := by
  have hstands : Stands { text } "" text.toList :=
    ⟨by rw [String.ofList_toList, String.empty_append], rfl⟩
  exact hstands.advance?

/-- What `cursor` hands out, and how it goes on: it stays where it is once
    there is nothing left. -/
inductive HandsOut (cursor : Cursor) : Option Token → Cursor → Prop
  | nothing : HandsOut cursor none cursor
  | token {token : Token} {later : Cursor} : cursor.Advances later →
      HandsOut cursor (some token) later

/-- **The next token** is that of the stream. -/
theorem Follows.next? {text : String} {stream : Stream} (h : Follows text cursor stream) :
    ∃ later, cursor.next? = some (stream.next.1, later) ∧ cursor.HandsOut stream.next.1 later ∧
      Follows text later stream.next.2 := by
  obtain ⟨done, hstands⟩ := h.stands
  match stream with
  | ⟨none, rest⟩ =>
    have hahead : cursor.ahead = none := h.ahead
    exact ⟨cursor, by rw [Cursor.next?, hahead]; rfl, .nothing, h⟩
  | ⟨some chunk, rest⟩ =>
    have hahead : cursor.ahead = some (ofChunk chunk) := h.ahead
    obtain ⟨later, hlater, hadvances, hfollows⟩ := hstands.advance?
    rw [h.text] at hfollows
    exact ⟨later, by rw [Cursor.next?, hahead]; simp only [hlater]; rfl, .token hadvances, hfollows⟩

/-- The cursor after `count` tokens, as far as its slices exist. -/
def after (cursor : Cursor) : (count : Nat) → Cursor
  | 0 => cursor
  | count + 1 =>
    match cursor.next? with
    | some (_, later) => later.after count
    | none => cursor

/-- **All tokens** are handed out, one after the other. -/
theorem Follows.after {text : String} {stream : Stream} (h : Follows text cursor stream)
    (count : Nat) :
    (cursor.after count).next? = some (stream.tokens[count]?, cursor.after (count + 1)) ∧
      (cursor.after count).HandsOut stream.tokens[count]? (cursor.after (count + 1)) ∧
      (cursor.after count).text = text ∧
      String.Pos.Raw.IsValid text ⟨(cursor.after count).index⟩ := by
  induction count generalizing cursor stream with
  | zero =>
    obtain ⟨later, hnext, hout, -⟩ := h.next?
    obtain ⟨done, hstands⟩ := h.stands
    have hlater : cursor.after 1 = later := by simp [Cursor.after, hnext]
    rw [stream.tokens_zero, hlater]
    exact ⟨hnext, hout, h.text, h.text ▸ hstands.isValid⟩
  | succ count ih =>
    obtain ⟨later, hnext, -, hfollows⟩ := h.next?
    have hlater : ∀ count, cursor.after (count + 1) = later.after count := fun count => by
      rw [Cursor.after, hnext]
    rw [hlater, hlater, stream.tokens_succ]
    exact ih hfollows

theorem HandsOut.index_le {token : Option Token} (h : cursor.HandsOut token later) :
    cursor.index ≤ later.index := by
  cases h with
  | nothing => exact Nat.le_refl _
  | token hadvances =>
    obtain ⟨skipped, -, hmoves, hmoves'⟩ := hadvances
    exact hmoves.index_le.trans hmoves'.index_le

end Cursor

/-! ## Whole texts -/

open Text (IsChunk IsGap Spaced chunks trim)

/-- What scanning a text comes to. -/
structure Scans (text : String) : Prop where
  /-- The chunks are runs of characters that are not blank. -/
  isChunk : ∀ chunk ∈ chunks text, IsChunk chunk
  /-- They stand in the text in their order, with blanks between any two of
      them, and nothing but blanks beside them. -/
  spaced : Spaced (chunks text) text
  unique : ∀ others, (∀ chunk ∈ others, IsChunk chunk) → Spaced others text → others = chunks text
  tokens : all text = (chunks text).map ofChunk
  /-- Asking for any number of tokens gives these, and then nothing. -/
  nexts : ∀ count, (Stream.ofText text).nexts count =
    ((all text).take count).map some ++ List.replicate (count - (all text).length) none
  /-- By byte offsets, all slices exist, and the offset stays between two
      characters and never goes back. -/
  cursors : ∃ cursor, Cursor.ofText? text = some cursor ∧ Cursor.Advances { text } cursor ∧
    (∀ count, (cursor.after count).next? = some ((all text)[count]?, cursor.after (count + 1)) ∧
      (cursor.after count).HandsOut (all text)[count]? (cursor.after (count + 1))) ∧
    (∀ count, String.Pos.Raw.IsValid text ⟨(cursor.after count).index⟩ ∧
      (cursor.after count).index ≤ text.utf8ByteSize) ∧
    Monotone fun count => (cursor.after count).index

theorem scans (text : String) : Scans text where
  isChunk := Text.isChunk_of_mem_pieces text.toList
  spaced := Text.spaced_chunks text
  unique _ hchunks hspaced := (Text.chunks_of_spaced hchunks hspaced).symm
  tokens := all_eq_map text
  nexts := (Stream.ofText text).nexts_eq
  cursors := by
    obtain ⟨cursor, hcursor, hadvances, hfollows⟩ := Cursor.exists_ofText? text
    refine ⟨cursor, hcursor, hadvances, fun count => ?_, fun count => ?_, ?_⟩
    · obtain ⟨hnext, hout, -⟩ := hfollows.after count
      exact ⟨hnext, hout⟩
    · obtain ⟨-, -, -, hvalid⟩ := hfollows.after count
      exact ⟨hvalid, hvalid.le_utf8ByteSize⟩
    · exact monotone_nat_of_le_succ fun count => (hfollows.after count).2.1.index_le

/-- **Scanning** hands out the tokens of the chunks of a text, each chunk once
    and in the order of the text; a word carries its chunk.  Blanks separate, and
    do not matter otherwise. -/
theorem scanning_chunks :
    (∀ text, Scans text) ∧
    (∀ chunk word, ofChunk chunk = .word word → word = chunk) ∧
    (∀ gap : String, IsGap gap.toList → gap ≠ "" → ∀ text text',
      all (text ++ gap ++ text') = all text ++ all text') ∧
    ∀ text, all (trim text) = all text := by
  refine ⟨scans, fun _ _ => eq_of_ofChunk, fun gap hgap hne text text' => ?_, fun text => ?_⟩
  · rw [all_eq_map, Text.chunks_append hgap hne, List.map_append, all_eq_map, all_eq_map]
  · rw [all_eq_map, Text.chunks_trim, all_eq_map]

/-- Blanks of three bytes between letters of two. -/
theorem scanning_wideBlank :
    IsGap "\u2003".toList ∧ "\u2003" ≠ "" ∧
      all ("é 1" ++ "\u2003" ++ "-") = all "é 1" ++ all "-" ∧
      ofChunk "é" = .word "é" := by
  have hgap : IsGap "\u2003".toList := Text.isGap_of_all rfl
  have hne : "\u2003" ≠ "" := by decide
  exact ⟨hgap, hne, scanning_chunks.2.2.1 "\u2003" hgap hne "é 1" "-", rfl⟩

end Token

end ReversePolish

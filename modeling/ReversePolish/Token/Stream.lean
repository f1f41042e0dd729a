/-
  Token streams, which hand out the tokens of a text one by one.

  The chunks of a text are its maximal runs of characters that are not blank.
  A stream has one chunk read ahead: the chunk of the token that it hands
  out next.

  * `Token.Stream.next` hands out a token;
  * `Token.Stream.tokens` are all tokens that a stream still hands out;
  * `Token.all` are the tokens of a text.
-/
import ReversePolish.Text.Blank
import ReversePolish.Token.Basic

namespace ReversePolish.Token

open Text (isBlank)

/-- A stream of the tokens of a text. -/
structure Stream where
  /-- The chunk read ahead, if there is one. -/
  ahead : Option String
  /-- The characters after that chunk. -/
  rest : List Char

namespace Stream

/-- A stream that has just read ahead the first chunk of the characters. -/
def ofChars (cs : List Char) : Stream :=
  match cs.dropWhile isBlank with
  | [] => ⟨none, []⟩
  | c :: cs => ⟨some (.ofList (c :: cs.takeWhile (!isBlank ·))), cs.dropWhile (!isBlank ·)⟩

/-- The stream of all tokens of a text. -/
def ofText (text : String) : Stream :=
  ofChars text.toList

/-- The next token, if there is one, and the stream after it. -/
def next : Stream → Option Token × Stream
  | ⟨none, rest⟩ => (none, ⟨none, rest⟩)
  | ⟨some chunk, rest⟩ => (some (.ofChunk chunk), ofChars rest)

/-! ## Running to the end -/

/-- A bound on the number of tokens to come. -/
def size : Stream → Nat
  | ⟨none, _⟩ => 0
  | ⟨some _, rest⟩ => rest.length + 1

theorem size_ofChars_le (cs : List Char) : (ofChars cs).size ≤ cs.length := by
  unfold ofChars
  split
  · exact Nat.zero_le _
  · next c rest h =>
    calc (rest.dropWhile (!isBlank ·)).length + 1
        ≤ rest.length + 1 := Nat.succ_le_succ (List.dropWhile_sublist _).length_le
      _ = (cs.dropWhile isBlank).length := by rw [h]; rfl
      _ ≤ cs.length := (List.dropWhile_sublist _).length_le

theorem size_lt_of_next {stream later : Stream} {token : Token}
    (h : stream.next = (some token, later)) : later.size < stream.size := by
  match stream, h with
  | ⟨some chunk, rest⟩, h =>
    simp only [next, Prod.mk.injEq] at h
    rw [← h.2]
    exact Nat.lt_succ_of_le (size_ofChars_le rest)

/-- All tokens still to come. -/
def tokens (stream : Stream) : List Token :=
  match _h : stream.next with
  | (none, _) => []
  | (some token, later) => token :: later.tokens
termination_by stream.size
decreasing_by exact size_lt_of_next _h

/-- What `count` times asking for the next token gives. -/
def nexts (stream : Stream) : (count : Nat) → List (Option Token)
  | 0 => []
  | count + 1 => stream.next.1 :: stream.next.2.nexts count

end Stream

/-- The tokens of a text. -/
def all (text : String) : List Token :=
  (Stream.ofText text).tokens

end ReversePolish.Token

/-
  The lines of texts that arrive as bytes.

  * `Text.utf8` are the bytes of a text, `Text.toNat_of_mem_encode` says which of
    them can be those of a line feed or a carriage return;
  * `Text.IsLine` are the texts that arrive as one line;
  * `Line.Complete` are the bytes that end with a line, `Line.all_append`: they have
    lines of their own;
  * `Line.all_unlines`: lines arrive as they are sent;
  * `Line.all_undecodable`: bytes of no text arrive as one line that cannot be
    decoded.
-/
import ReversePolish.Shell.Message
import ReversePolish.Text.Line

namespace ReversePolish.Text

open Shell (unlines)

variable {text : String} {bytes : List UInt8} {byte : UInt8} {c : Char}

/-! ## Bytes -/

/-- The bytes of a text, in UTF-8. -/
def utf8 (text : String) : List UInt8 :=
  text.toUTF8.data.toList

theorem utf8_append (text text' : String) : utf8 (text ++ text') = utf8 text ++ utf8 text' := by
  simp [utf8]

theorem utf8_eq_flatMap (text : String) :
    utf8 text = text.toList.flatMap String.utf8EncodeChar := by
  rw [utf8, String.toUTF8_eq_toByteArray, ← String.utf8Encode_toList, List.utf8Encode,
    List.data_toByteArray]

theorem ofBytes_utf8 (text : String) : Line.ofBytes (utf8 text) = .text text := by
  have hread : String.fromUTF8? text.toByteArray = some text := by
    rw [String.fromUTF8?, dif_pos text.isValidUTF8]
    rfl
  rw [Line.ofBytes, utf8, String.toUTF8_eq_toByteArray, Array.toArray_toList, hread]

/-- Bytes that are not those of a text cannot be decoded. -/
theorem ofBytes_eq_undecodable (h : ∀ text, utf8 text ≠ bytes) :
    Line.ofBytes bytes = .undecodable := by
  unfold Line.ofBytes
  split
  · next content hread =>
    unfold String.fromUTF8? at hread
    split at hread
    · next hvalid => exact absurd (List.toList_toArray) (h ⟨_, hvalid⟩)
    · contradiction
  · rfl

theorem le_toNat_ofNat {n : Nat} (hle : 128 ≤ n) (hlt : n < 256) :
    128 ≤ (UInt8.ofNat n).toNat := by
  rw [UInt8.toNat_ofNat', Nat.mod_eq_of_lt hlt]
  exact hle

/-- A byte of ASCII encodes a character of ASCII. -/
theorem toNat_of_mem_encode (h : byte ∈ String.utf8EncodeChar c) (hbyte : byte.toNat < 128) :
    c.toNat = byte.toNat := by
  have hmarked : ∀ payload lead, 128 ≤ lead → payload + lead < 256 →
      byte ≠ UInt8.ofNat (payload + lead) := by
    rintro payload lead hlead hlt rfl
    have := le_toNat_ofNat (Nat.le_trans hlead (Nat.le_add_left lead payload)) hlt
    omega
  simp only [String.utf8EncodeChar] at h
  split at h
  · next hc =>
    rw [List.mem_singleton.1 h, UInt8.toNat_ofNat', Nat.mod_eq_of_lt (by omega)]
    rfl
  -- all bytes of longer encodings are marked
  · split at h
    · simp only [List.mem_cons, List.not_mem_nil, or_false] at h
      rcases h with h | h <;> exact absurd h (hmarked _ _ (by decide) (by omega))
    · split at h
      · simp only [List.mem_cons, List.not_mem_nil, or_false] at h
        rcases h with h | h | h <;> exact absurd h (hmarked _ _ (by decide) (by omega))
      · simp only [List.mem_cons, List.not_mem_nil, or_false] at h
        rcases h with h | h | h | h <;> exact absurd h (hmarked _ _ (by decide) (by omega))

theorem feed_notMem_utf8 (h : '\n' ∉ text.toList) : Line.feed ∉ utf8 text := by
  rw [utf8_eq_flatMap, List.mem_flatMap]
  rintro ⟨c, hc, hfeed⟩
  have hnewline : c = '\n' := Char.toNat_inj.1 (toNat_of_mem_encode hfeed (by decide))
  exact h (hnewline ▸ hc)

theorem getLast?_utf8 (h : text.toList.getLast? ≠ some '\r') :
    (utf8 text).getLast? ≠ some 0x0D := by
  rw [utf8_eq_flatMap]
  rcases List.eq_nil_or_concat text.toList with hnil | ⟨cs, c, hcs⟩
  · rw [hnil]
    simp
  · obtain ⟨last, hlast⟩ : ∃ last, (String.utf8EncodeChar c).getLast? = some last :=
      ⟨_, List.getLast?_eq_some_getLast String.utf8EncodeChar_ne_nil⟩
    rw [hcs, List.concat_eq_append, List.flatMap_append, List.flatMap_singleton,
      List.getLast?_append, hlast, Option.some_or]
    rintro ⟨⟩
    have hreturn : c = '\r' :=
      Char.toNat_inj.1 (toNat_of_mem_encode (List.mem_of_getLast? hlast) (by decide))
    rw [hcs, hreturn] at h
    exact h (by simp)

/-! ## Lines -/

/-- The text holds no end of a line, and the end that follows it is not taken for a
    longer one. -/
structure IsLine (text : String) : Prop where
  newline : '\n' ∉ text.toList
  carriageReturn : text.toList.getLast? ≠ some '\r'

namespace Line

theorem allFrom_append_feed (pending bytes rest : List UInt8) :
    allFrom pending (bytes ++ feed :: rest) = allFrom pending (bytes ++ [feed]) ++ all rest := by
  induction bytes generalizing pending with
  | nil => simp [allFrom, all, unended]
  | cons byte bytes ih =>
    simp only [List.cons_append, allFrom]
    split
    · rw [ih, List.cons_append]
    · exact ih _

/-- **What ends with a line feed** has lines of its own. -/
theorem all_append_feed (bytes rest : List UInt8) :
    all (bytes ++ feed :: rest) = all (bytes ++ [feed]) ++ all rest :=
  allFrom_append_feed [] bytes rest

/-- The bytes end where a line ends. -/
def Complete (bytes : List UInt8) : Prop :=
  ∀ last ∈ bytes.getLast?, last = feed

instance (bytes : List UInt8) : Decidable (Complete bytes) :=
  inferInstanceAs (Decidable (∀ last ∈ bytes.getLast?, last = feed))

/-- Complete lines, whatever arrives after them. -/
theorem all_append (h : Complete bytes) (rest : List UInt8) :
    all (bytes ++ rest) = all bytes ++ all rest := by
  rcases List.eq_nil_or_concat bytes with rfl | ⟨before, last, rfl⟩
  · rfl
  · obtain rfl : last = feed := h last (by simp)
    rw [List.concat_eq_append, List.append_assoc, List.singleton_append, all_append_feed]

theorem allFrom_of_notMem {pending : List UInt8} (h : feed ∉ bytes) :
    allFrom pending (bytes ++ [feed]) = [ended (bytes.reverse ++ pending)] := by
  induction bytes generalizing pending with
  | nil => simp [allFrom, unended]
  | cons byte bytes ih =>
    obtain ⟨hbyte, hbytes⟩ := not_or.1 (mt List.mem_cons.2 h)
    rw [List.cons_append, allFrom, if_neg (Ne.symm hbyte), ih hbytes, List.reverse_cons,
      List.append_assoc]
    rfl

theorem ended_reverse (h : bytes.getLast? ≠ some 0x0D) : ended bytes.reverse = ofBytes bytes := by
  unfold ended
  split
  · next earlier heq =>
    rw [← List.head?_reverse, heq] at h
    exact absurd rfl h
  · rw [List.reverse_reverse]

theorem allFrom_eq_unended {pending : List UInt8} (h : feed ∉ bytes) :
    allFrom pending bytes = (unended (bytes.reverse ++ pending)).toList := by
  induction bytes generalizing pending with
  | nil => rfl
  | cons byte bytes ih =>
    obtain ⟨hbyte, hbytes⟩ := not_or.1 (mt List.mem_cons.2 h)
    rw [allFrom, if_neg (Ne.symm hbyte), ih hbytes, List.reverse_cons, List.append_assoc]
    rfl

/-- A carriage return at the end does not make a text of bytes that are none. -/
theorem ended_eq_undecodable (h : ∀ text, utf8 text ≠ bytes) :
    ended bytes.reverse = .undecodable := by
  unfold ended
  split
  · next earlier heq =>
    refine ofBytes_eq_undecodable fun text htext => h (text ++ "\r") ?_
    have hreturn : utf8 "\r" = [0x0D] := by decide
    rw [utf8_append, htext, hreturn, ← List.reverse_cons, ← heq, List.reverse_reverse]
  · rw [List.reverse_reverse]
    exact ofBytes_eq_undecodable h

/-- **Bytes of no text** are one line that cannot be decoded, if the line or the
    input ends there. -/
theorem all_undecodable (hfeed : feed ∉ bytes) (h : ∀ text, utf8 text ≠ bytes) {rest : List UInt8}
    (hrest : ∀ byte ∈ rest.head?, byte = feed) :
    ∃ later, all (bytes ++ rest) = .undecodable :: later := by
  cases rest with
  | nil =>
    have hne : bytes.reverse.isEmpty = false := by
      cases bytes with
      | nil => exact absurd rfl (h "")
      | cons byte bytes => simp
    refine ⟨[], ?_⟩
    rw [List.append_nil, all, allFrom_eq_unended hfeed, List.append_nil, unended, hne,
      List.reverse_reverse, ofBytes_eq_undecodable h]
    rfl
  | cons byte rest =>
    obtain rfl : byte = feed := hrest byte rfl
    refine ⟨all rest, ?_⟩
    rw [all_append_feed, all, allFrom_of_notMem hfeed, List.append_nil, ended_eq_undecodable h]
    rfl

/-- A line as it is sent: it arrives as it is. -/
theorem all_line (h : IsLine text) (rest : List UInt8) :
    all (utf8 text ++ feed :: rest) = .text text :: all rest := by
  rw [all_append_feed, all, allFrom_of_notMem (feed_notMem_utf8 h.newline), List.append_nil,
    ended_reverse (getLast?_utf8 h.carriageReturn), ofBytes_utf8]
  rfl

end Line

theorem utf8_unlines_cons (text : String) (texts : List String) :
    utf8 (unlines (text :: texts)) = utf8 text ++ Line.feed :: utf8 (unlines texts) := by
  have hfeed : utf8 "\n" = [Line.feed] := by decide
  rw [unlines, List.map_cons, String.join_cons, utf8_append, utf8_append, hfeed,
    List.append_assoc]
  rfl

namespace Line

/-- Lines as they are sent, whatever arrives after them. -/
theorem all_unlines_append (texts : List String) (rest : List UInt8) :
    all (utf8 (unlines texts) ++ rest) = all (utf8 (unlines texts)) ++ all rest := by
  induction texts with
  | nil => rfl
  | cons text texts ih =>
    rw [utf8_unlines_cons, List.append_assoc, List.cons_append, all_append_feed, ih,
      all_append_feed _ (utf8 _), List.append_assoc]

/-- **Lines** arrive as they are sent. -/
theorem all_unlines {texts : List String} (h : ∀ text ∈ texts, IsLine text) :
    all (utf8 (unlines texts)) = texts.map .text := by
  induction texts with
  | nil => rfl
  | cons text texts ih =>
    rw [utf8_unlines_cons, all_line (h text (by simp)), ih fun text ht => h text (by simp [ht])]
    rfl

end Line

end ReversePolish.Text

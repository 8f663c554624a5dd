import Brisk.Proofs.Source.Spells

/-!
# Sources line by line

A source is decoded line by line, and a text as a whole. The two agree: bytes that are a text in
UTF-8 are laid out like that text (`Source.ofBytes_eq_ofString`), and if every line can be decoded
then so can all the bytes (`Source.ofBytes?_of_lines`).

The byte of a line feed is in no other character, so the lines of an encoded text are the encoded
lines of the text (`Source.lines_encode`). Cutting behind line feeds separates no carriage return
from the line feed behind it.
-/

namespace Brisk

namespace Text

/-- The bytes of characters in UTF-8. -/
def encode (cs : List Char) : List UInt8 := cs.flatMap String.utf8EncodeChar

/-- A text is encoded character by character. -/
theorem encode_cons (c : Char) (cs : List Char) :
    encode (c :: cs) = String.utf8EncodeChar c ++ encode cs := rfl

/-- Texts are encoded one behind the other. -/
theorem encode_append (cs cs' : List Char) : encode (cs ++ cs') = encode cs ++ encode cs' :=
  List.flatMap_append

/-- The bytes of a text are the encoding of its characters. -/
theorem bytes_eq_encode (s : String) : bytes s = encode s.toList := by
  have htext : (String.ofList s.toList).toByteArray = s.toList.utf8Encode :=
    String.toByteArray_ofList
  rw [String.ofList_toList] at htext
  unfold bytes encode
  rw [String.toUTF8_eq_toByteArray, htext]
  simp [List.utf8Encode]

/-- The bytes of a text are decoded to the text. -/
theorem ofBytes?_bytes (s : String) : ofBytes? (bytes s) = some s := by
  have hbytes : (⟨(bytes s).toArray⟩ : ByteArray) = s.toByteArray := by
    apply ByteArray.ext
    unfold bytes
    rw [String.toUTF8_eq_toByteArray]
  unfold ofBytes? String.fromUTF8?
  rw [hbytes, dif_pos s.isValidUTF8]
  rfl

/-- Bytes are decoded to the text of which they are the encoding. -/
theorem ofBytes?_eq_some_iff {bytes : List UInt8} {s : String} :
    ofBytes? bytes = some s ↔ bytes = encode s.toList := by
  rw [← bytes_eq_encode]
  -- Decoding accepts the encodings of texts only, which is what the library proves of it.
  constructor
  · intro h
    unfold ofBytes? String.fromUTF8? at h
    split at h
    next hvalid =>
      obtain rfl := Option.some.inj h
      rfl
    · exact absurd h (by simp)
  · rintro rfl
    exact ofBytes?_bytes s

/-- Texts that can be decoded can be decoded one after another. -/
theorem ofBytes?_append {bytes bytes' : List UInt8} {s s' : String} (h : ofBytes? bytes = some s)
    (h' : ofBytes? bytes' = some s') : ofBytes? (bytes ++ bytes') = some (s ++ s') := by
  rw [ofBytes?_eq_some_iff] at h h' ⊢
  rw [h, h', String.toList_append, encode_append]

/-- The byte of a line feed is only in the line feed. -/
theorem not_mem_utf8EncodeChar {c : Char} (h : c ≠ '\n') : 10 ∉ String.utf8EncodeChar c := by
  have hval : c.val.toNat ≠ 10 := by
    intro hval
    exact h (Char.ext (UInt32.toNat_inj.mp hval))
  have hbyte : ∀ n, n ≠ 10 → n < 256 → (10 : UInt8) ≠ UInt8.ofNat n := by
    intro n hn hlt heq
    have hnat := congrArg UInt8.toNat heq
    rw [UInt8.toNat_ofNat'] at hnat
    have hten : (10 : UInt8).toNat = 10 := rfl
    omega
  unfold String.utf8EncodeChar
  simp only
  -- The bytes of a character that has several are 128 and above.
  split
  · rw [List.mem_singleton]
    exact hbyte _ hval (by omega)
  split
  · rw [List.mem_cons, List.mem_singleton, not_or]
    exact ⟨hbyte _ (by omega) (by omega), hbyte _ (by omega) (by omega)⟩
  split
  · rw [List.mem_cons, List.mem_cons, List.mem_singleton, not_or, not_or]
    exact ⟨hbyte _ (by omega) (by omega), hbyte _ (by omega) (by omega),
      hbyte _ (by omega) (by omega)⟩
  · rw [List.mem_cons, List.mem_cons, List.mem_cons, List.mem_singleton, not_or, not_or, not_or]
    exact ⟨hbyte _ (by omega) (by omega), hbyte _ (by omega) (by omega),
      hbyte _ (by omega) (by omega), hbyte _ (by omega) (by omega)⟩

end Text

namespace Source

/-! ## Lines of bytes -/

/-- No byte is lost or added by cutting into lines. -/
theorem flatten_lines (bytes : List UInt8) : (lines bytes).flatten = bytes := by
  fun_induction lines bytes with
  | case1 => rfl
  | case2 bytes ih => rw [List.flatten_cons, ih, List.singleton_append]
  | case3 b bytes hb hlines ih =>
    rw [hlines, List.flatten_nil] at ih
    rw [← ih]
    rfl
  | case4 b bytes hb line more hlines ih =>
    rw [hlines, List.flatten_cons] at ih
    rw [List.flatten_cons, List.cons_append, ih]

/-- If every line can be decoded, so can all the bytes. -/
theorem ofBytes?_of_lines {bytes : List UInt8}
    (h : ∀ line ∈ lines bytes, ∃ s, Text.ofBytes? line = some s) :
    ∃ s, Text.ofBytes? bytes = some s := by
  rw [← flatten_lines bytes]
  generalize lines bytes = ls at h
  induction ls with
  | nil => exact ⟨"", Text.ofBytes?_eq_some_iff.mpr rfl⟩
  | cons line ls ih =>
    obtain ⟨s, hs⟩ := h line List.mem_cons_self
    obtain ⟨s', hs'⟩ := ih fun line hline => h line (List.mem_cons_of_mem _ hline)
    exact ⟨s ++ s', Text.ofBytes?_append hs hs'⟩

/-- Bytes without a line feed extend the line behind them. -/
theorem lines_append {front : List UInt8} (hne : front ≠ []) (h : 10 ∉ front) (bytes : List UInt8) :
    lines (front ++ bytes) = (front ++ (lines bytes).headD []) :: (lines bytes).tail := by
  induction front with
  | nil => exact absurd rfl hne
  | cons b front ih =>
    have hb : b ≠ 10 := fun hb => h (by rw [hb]; exact List.mem_cons_self)
    have hfront : 10 ∉ front := fun hmem => h (List.mem_cons_of_mem b hmem)
    rw [List.cons_append, lines, if_neg hb]
    cases front with
    | nil =>
      -- The last byte in front joins the line behind, if there is one.
      rw [List.nil_append]
      cases lines bytes <;> rfl
    | cons b' front =>
      rw [ih (by simp) hfront]
      rfl

/-! ## Lines of characters -/

/-- Cuts a text into lines, each of which keeps the line feed that ends it. -/
def charLines : List Char → List (List Char)
  | [] => []
  | c :: cs =>
    if c = '\n' then [c] :: charLines cs
    else (c :: (charLines cs).headD []) :: (charLines cs).tail

/-- The lines of an encoded text are the encoded lines of the text. -/
theorem lines_encode (cs : List Char) :
    lines (Text.encode cs) = (charLines cs).map Text.encode := by
  induction cs with
  | nil => rfl
  | cons c cs ih =>
    rw [Text.encode_cons, charLines]
    -- A line ends at the byte of a line feed, and no other character has that byte.
    by_cases hc : c = '\n'
    · have hbreak : String.utf8EncodeChar c = [10] := by
        rw [hc]
        decide
      rw [if_pos hc, hbreak, List.singleton_append, lines, if_pos rfl, ih, List.map_cons, hc]
      rfl
    · rw [if_neg hc, lines_append String.utf8EncodeChar_ne_nil (Text.not_mem_utf8EncodeChar hc), ih,
        List.map_cons, Text.encode_cons]
      cases charLines cs <;> rfl

/-- The first of several lines is not empty, and it starts like the text. -/
theorem charLines_cons_head (c : Char) (cs : List Char) :
    ∃ line more, charLines (c :: cs) = (c :: line) :: more := by
  rw [charLines]
  split
  · exact ⟨[], charLines cs, rfl⟩
  · exact ⟨_, _, rfl⟩

/-- The pieces of the lines of a text are those of the text. -/
theorem flatMap_piecesOfChars_charLines (cs : List Char) :
    (charLines cs).flatMap piecesOfChars = piecesOfChars cs := by
  -- By induction along the pieces, as a break of two characters is one piece and ends one line.
  fun_induction piecesOfChars cs with
  | case1 => rfl
  | case2 cs ih =>
    have hlines : charLines ('\r' :: '\n' :: cs) = ['\r', '\n'] :: charLines cs := by
      rw [charLines, if_neg (by decide), charLines, if_pos rfl]
      rfl
    rw [hlines, List.flatMap_cons, ih]
    rfl
  | case3 c cs hbreak ih =>
    rw [← ih, charLines]
    by_cases hc : c = '\n'
    · rw [if_pos hc, List.flatMap_cons, hc]
      rfl
    · rw [if_neg hc, List.flatMap_cons]
      cases cs with
      | nil =>
        rw [charLines, List.headD_nil, piecesOfChars]
        · rfl
        · simp
      | cons d cs =>
        -- The line behind starts with `d`, so it makes no break of two characters with `c`.
        obtain ⟨line, more, hlines⟩ := charLines_cons_head d cs
        rw [hlines, List.headD_cons, List.tail_cons, List.flatMap_cons, piecesOfChars]
        · rfl
        · intro cs' hcr heq
          rw [(List.cons.inj heq).1] at hbreak
          exact hbreak cs hcr rfl

/-- Bytes that are a text in UTF-8 are laid out like the text. -/
theorem ofBytes_eq_ofString {bytes : List UInt8} {s : String} (h : Text.ofBytes? bytes = some s) :
    ofBytes bytes .endOfFile = ofString s := by
  have hline : ∀ line, piecesOfLine (Text.encode line) = piecesOfChars line := by
    intro line
    have hdecoded : Text.ofBytes? (Text.encode line) = some (String.ofList line) :=
      Text.ofBytes?_eq_some_iff.mpr (by rw [String.toList_ofList])
    unfold piecesOfLine
    rw [hdecoded]
    exact congrArg piecesOfChars String.toList_ofList
  -- Breaking the bytes into lines and decoding each of them is breaking the decoded text.
  have hpieces : (lines bytes).flatMap piecesOfLine = piecesOfChars s.toList := by
    calc (lines bytes).flatMap piecesOfLine
        = ((charLines s.toList).map Text.encode).flatMap piecesOfLine := by
          rw [Text.ofBytes?_eq_some_iff.mp h, lines_encode]
      _ = (charLines s.toList).flatMap piecesOfChars := by
          rw [List.flatMap_map]
          simp only [hline]
      _ = piecesOfChars s.toList := flatMap_piecesOfChars_charLines s.toList
  unfold ofBytes ofString Ending.delivered
  rw [hpieces]
  rfl

end Source

end Brisk

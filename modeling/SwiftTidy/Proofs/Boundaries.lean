import SwiftTidy.Proofs.Offsets
import SwiftTidy.Proofs.Rereading
import Mathlib.Data.String.Basic

/-!
# Token boundaries

The tokens of a text cut it into pieces, and each cut falls between two characters (`spans_tokensOf`). What is on one
side of a cut does not depend on what is on the other side (`tokensOf_pieces`).
-/

namespace SwiftTidy.Lexer

open Text

/-! ## Comments byte by byte -/

/-- The rest of a block comment as `commentExtent?` has it, but counted in bytes and read byte by byte: a slash is the
byte 47 and an asterisk the byte 42, wherever it stands. -/
def commentBytes? (depth : Nat) : List UInt8 → Option Nat
  | 47 :: 42 :: bytes => (commentBytes? (depth + 1) bytes).map (· + 2)
  | 42 :: 47 :: bytes =>
    match depth with
    | 0 => some 2
    | outer + 1 => (commentBytes? outer bytes).map (· + 2)
  | _ :: bytes => (commentBytes? depth bytes).map (· + 1)
  | [] => none

variable {b : UInt8} {c : Char} {cs : List Char} {depth : Nat}

lemma toNat_eq_of_mem_utf8EncodeChar (h : b ∈ String.utf8EncodeChar c) (hb : b.toNat < 128) : c.toNat = b.toNat := by
  have hv : c.val.toNat = c.toNat := rfl
  simp only [String.utf8EncodeChar, hv] at h
  split at h
  · obtain rfl : b = UInt8.ofNat c.toNat := by simpa using h
    simp only [UInt8.toNat_ofNat']
    omega
  · exfalso
    split at h <;> try split at h
    all_goals
      simp only [List.mem_cons, List.not_mem_nil, or_false] at h
      rcases h with rfl | rfl | rfl | rfl
    all_goals
      simp only [UInt8.toNat_ofNat'] at hb
      omega

lemma commentBytes?_append {front : List UInt8} (h : ∀ b ∈ front, b ≠ 47 ∧ b ≠ 42) (back : List UInt8) :
    commentBytes? depth (front ++ back) = (commentBytes? depth back).map (· + front.length) := by
  induction front with
  | nil => simp
  | cons b front ih =>
    obtain ⟨hslash, hstar⟩ := h b (by simp)
    rw [List.cons_append, commentBytes?, ih fun other hother => h other (by simp [hother]), Option.map_map]
    · rfl
    · exact fun _ hb => absurd hb hslash
    · exact fun _ hb => absurd hb hstar

lemma exists_of_utf8 {d : Char} {rest : List UInt8} (h : cs.flatMap String.utf8EncodeChar = b :: rest)
    (hd : d.toNat = b.toNat) (hb : b.toNat < 128) : ∃ more, cs = d :: more := by
  cases cs with
  | nil => simp at h
  | cons c more =>
    have hmem : b ∈ String.utf8EncodeChar c := by
      rw [List.flatMap_cons] at h
      cases hc : String.utf8EncodeChar c with
      | nil =>
        have := c.utf8Size_pos
        simp [← String.length_utf8EncodeChar, hc] at this
      | cons a bytes => simp_all
    have hc := toNat_eq_of_mem_utf8EncodeChar hmem hb
    exact ⟨more, by rw [Char.toNat_inj.1 (hc.trans hd.symm)]⟩

/-- The bytes of a character that begins no sign are passed over together. -/
lemma commentBytes?_cons (hopen : ∀ more, c = '/' → cs = '*' :: more → False)
    (hclose : ∀ more, c = '*' → cs = '/' :: more → False) :
    commentBytes? depth ((c :: cs).flatMap String.utf8EncodeChar) =
      (commentBytes? depth (cs.flatMap String.utf8EncodeChar)).map (· + c.utf8Size) := by
  rw [List.flatMap_cons]
  by_cases hslash : c = '/'
  · subst hslash
    have henc : String.utf8EncodeChar '/' = [47] := by decide
    rw [henc, List.singleton_append, commentBytes?]
    · rfl
    · intro bytes _ hbytes
      obtain ⟨more, hmore⟩ := exists_of_utf8 (d := '*') hbytes rfl (by decide)
      exact hopen more rfl hmore
    · simp
  by_cases hstar : c = '*'
  · subst hstar
    have henc : String.utf8EncodeChar '*' = [42] := by decide
    rw [henc, List.singleton_append, commentBytes?]
    · rfl
    · simp
    · intro bytes _ hbytes
      obtain ⟨more, hmore⟩ := exists_of_utf8 (d := '/') hbytes rfl (by decide)
      exact hclose more rfl hmore
  · rw [commentBytes?_append, String.length_utf8EncodeChar]
    intro b hb
    constructor
    · rintro rfl
      exact hslash (Char.toNat_inj.1 (toNat_eq_of_mem_utf8EncodeChar hb (by decide)))
    · rintro rfl
      exact hstar (Char.toNat_inj.1 (toNat_eq_of_mem_utf8EncodeChar hb (by decide)))

/-- Read byte by byte, a comment ends where it does character by character, so never inside of a character. -/
lemma commentBytes?_utf8 (depth : Nat) (cs : List Char) :
    commentBytes? depth (cs.flatMap String.utf8EncodeChar) =
      (commentExtent? depth cs).map fun n => byteLength (cs.take n) := by
  have henc : String.utf8EncodeChar '/' = [47] ∧ String.utf8EncodeChar '*' = [42] := by decide
  have hsize : Char.utf8Size '/' = 1 ∧ Char.utf8Size '*' = 1 := by decide
  fun_induction commentExtent? depth cs with
  | case1 depth cs ih | case3 cs depth ih =>
    simp only [List.flatMap_cons, henc, List.singleton_append, commentBytes?, ih, Option.map_map]
    congr 1
    funext n
    simp only [Function.comp_apply, List.take_succ_cons, byteLength_cons, hsize]
    omega
  | case2 cs => simp [henc, hsize, commentBytes?]
  | case4 depth c cs hopen hclose ih =>
    rw [commentBytes?_cons hopen hclose, ih, Option.map_map, Option.map_map]
    congr 1
    funext n
    simp [Nat.add_comm]
  | case5 => rfl

end SwiftTidy.Lexer

namespace SwiftTidy

open Token

/-! ## Spans -/

/-- The offsets of a text at which a token begins or ends. -/
def boundaries (text : String) : List Nat := 0 :: (Token.spans 0 (tokensOf text)).map Span.stop

/-- The span that is found `n` bytes further on. -/
def Span.shift (n : Nat) (span : Span) : Span := ⟨n + span.start, n + span.stop⟩

/-- The part of a text between two offsets. -/
def slice (text : String) (start stop : Nat) : String := String.Pos.Raw.extract text ⟨start⟩ ⟨stop⟩

namespace Token

lemma spans_eq_map_shift (start : Nat) (tokens : List Token) :
    spans start tokens = (spans 0 tokens).map (Span.shift start) := by
  suffices h : ∀ n, spans (start + n) tokens = (spans n tokens).map (Span.shift start) by simpa using h 0
  induction tokens with
  | nil => simp [spans]
  | cons token tokens ih =>
    intro n
    rw [spans, spans, List.map_cons, Nat.add_assoc, ih]
    rfl

lemma cons_stops_spans (start : Nat) (tokens : List Token) :
    start :: (spans start tokens).map Span.stop =
      (spans start tokens).map Span.start ++ [start + (textOf tokens).utf8ByteSize] := by
  induction tokens generalizing start with
  | nil => simp [spans]
  | cons token tokens ih =>
    simp only [spans, List.map_cons, List.cons_append, List.cons.injEq, true_and, ih]
    simp [width, Nat.add_assoc]

lemma slice_textOf (front middle back : List Token) :
    slice (textOf (front ++ middle ++ back)) (textOf front).utf8ByteSize
      ((textOf front).utf8ByteSize + (textOf middle).utf8ByteSize) = textOf middle := by
  have h := String.extract_of_valid (textOf front).toList (textOf middle).toList (textOf back).toList
  rw [String.utf8Len_toList, String.utf8Len_toList, ← String.toList_append, ← String.toList_append, String.ofList_toList,
    String.ofList_toList, ← textOf_append, ← textOf_append] at h
  exact h

end Token

namespace Token

variable {start : Nat} {tokens : List Token}

lemma exists_of_mem_stops {b : Nat} (h : b ∈ start :: (spans start tokens).map Span.stop) :
    ∃ front back, tokens = front ++ back ∧ start + (textOf front).utf8ByteSize = b := by
  induction tokens generalizing start with
  | nil =>
    obtain rfl : b = start := by simpa [spans] using h
    exact ⟨[], [], rfl, by simp⟩
  | cons token tokens ih =>
    rw [List.mem_cons] at h
    rcases h with rfl | h
    · exact ⟨[], token :: tokens, rfl, by simp⟩
    · obtain ⟨front, back, rfl, hsize⟩ := ih (by simpa [spans] using h)
      exact ⟨token :: front, back, rfl, by simp [← hsize, width, Nat.add_assoc]⟩

lemma Sound.width_pos {token : Token} (h : token.Sound) : 0 < token.width := by
  obtain ⟨c, w, htext, -⟩ := h
  rw [width, ← Text.byteLength_toList, htext, Text.byteLength_cons]
  have := c.utf8Size_pos
  omega

lemma start_lt_stop_of_mem_spans {span : Span} (h : span ∈ spans start tokens) (hsound : ∀ token ∈ tokens, token.Sound) :
    span.start < span.stop := by
  induction tokens generalizing start with
  | nil => simp [spans] at h
  | cons token tokens ih =>
    rw [spans, List.mem_cons] at h
    rcases h with rfl | h
    · simpa using (hsound token (by simp)).width_pos
    · exact ih h fun other hother => hsound other (by simp [hother])

lemma map_slice_spans (front tokens : List Token) :
    (spans (textOf front).utf8ByteSize tokens).map
      (fun span => slice (textOf (front ++ tokens)) span.start span.stop) = tokens.map Token.text := by
  induction tokens generalizing front with
  | nil => simp [spans]
  | cons token tokens ih =>
    have hfirst := slice_textOf front [token] tokens
    have hrest := ih (front ++ [token])
    have hone : textOf [token] = token.text := by simp
    rw [List.append_assoc, List.singleton_append] at hfirst hrest
    rw [textOf_append front [token], String.utf8ByteSize_append, hone] at hrest
    rw [hone] at hfirst
    rw [spans, List.map_cons, List.map_cons, width, hfirst, hrest]

end Token

lemma exists_of_mem_boundaries {text : String} {b : Nat} (h : b ∈ boundaries text) :
    ∃ front back, tokensOf text = front ++ back ∧ text = textOf front ++ textOf back ∧
      (textOf front).utf8ByteSize = b := by
  obtain ⟨front, back, htokens, hsize⟩ := exists_of_mem_stops h
  exact ⟨front, back, htokens, by rw [← textOf_append, ← htokens, textOf_tokensOf], by rw [← hsize, Nat.zero_add]⟩

/-- The tokens of a text cut it into pieces: no token is empty, the first begins at the beginning, each of the others
where the one before it ends, and the last ends at the end; every cut falls between two characters, and a token is what
stands between two cuts. However its end is found, no token reaches past the end of the text, and a comment that is read
byte by byte ends between two characters as well. -/
theorem spans_tokensOf (text : String) :
    let spans := Token.spans 0 (tokensOf text)
    (∀ span ∈ spans, span.start < span.stop) ∧
    0 :: spans.map Span.stop = spans.map Span.start ++ [text.utf8ByteSize] ∧
    (∀ b ∈ boundaries text, String.Pos.Raw.IsValid text ⟨b⟩) ∧
    spans.map (fun span => slice text span.start span.stop) = (tokensOf text).map Token.text ∧
    (∀ c cs, (Lexer.scan c cs).more ≤ cs.length) ∧
    ∀ depth cs, Lexer.commentBytes? depth (cs.flatMap String.utf8EncodeChar) =
      (Lexer.commentExtent? depth cs).map fun n => Text.byteLength (cs.take n) := by
  intro spans
  refine ⟨?_, ?_, ?_, ?_, Lexer.more_scan_le, Lexer.commentBytes?_utf8⟩
  · exact fun span hspan => start_lt_stop_of_mem_spans hspan fun token htoken => Lexer.sound_of_mem_tokens htoken
  · simpa [textOf_tokensOf] using cons_stops_spans 0 (tokensOf text)
  · intro b hb
    obtain ⟨front, back, -, htext, rfl⟩ := exists_of_mem_boundaries hb
    exact String.Pos.Raw.isValid_iff_exists_append.2 ⟨_, _, htext, rfl⟩
  · simpa [textOf_tokensOf] using map_slice_spans [] (tokensOf text)

/-- A comment with a character of two bytes stands between a name and a name that lacks its second backtick. -/
theorem spans_tokensOf_wide :
    let text := "\u00e9/*\u00fc*/`x\n"
    let span : Span := ⟨2, 8⟩
    span ∈ Token.spans 0 (tokensOf text) ∧ span.start < span.stop ∧
      8 ∈ boundaries text ∧ String.Pos.Raw.IsValid text ⟨8⟩ ∧ slice text 2 8 = "/*\u00fc*/" := by
  intro text span
  have hspan : span ∈ Token.spans 0 (tokensOf text) := by decide +kernel
  have hcut : 8 ∈ boundaries text := by decide +kernel
  exact ⟨hspan, (spans_tokensOf text).1 span hspan, hcut, (spans_tokensOf text).2.2.1 8 hcut, by decide +kernel⟩

/-- Tokens do not depend on what is on the other side of a boundary: the two pieces of a text that is cut there are read
as the tokens before the cut and those behind it, and a single token is read from its own text. -/
theorem tokensOf_pieces (text : String) :
    (∀ b ∈ boundaries text,
      let front := slice text 0 b
      let back := slice text b text.utf8ByteSize
      tokensOf text = tokensOf front ++ tokensOf back ∧
        Token.spans 0 (tokensOf text) =
          Token.spans 0 (tokensOf front) ++ (Token.spans 0 (tokensOf back)).map (Span.shift b)) ∧
    ∀ token ∈ tokensOf text, tokensOf token.text = [token] := by
  constructor
  · intro b hb
    obtain ⟨front, back, htokens, htext, hsize⟩ := exists_of_mem_boundaries hb
    have hfront : slice text 0 b = textOf front := by
      have := slice_textOf [] front back
      rw [List.nil_append, textOf_append, ← htext, hsize] at this
      simpa using this
    have hback : slice text b text.utf8ByteSize = textOf back := by
      have := slice_textOf front back []
      rw [List.append_nil, textOf_append, ← htext, ← String.utf8ByteSize_append, ← htext, hsize] at this
      exact this
    have hread : tokensOf (textOf front) = front ∧ tokensOf (textOf back) = back :=
      ⟨Lexer.tokens_chars_of_infix ⟨[], back, htokens.symm⟩,
        Lexer.tokens_chars_of_infix ⟨front, [], by rw [List.append_nil]; exact htokens.symm⟩⟩
    simp only [hfront, hback, hread]
    refine ⟨htokens, ?_⟩
    rw [htokens, Tree.spans_append, hsize, Nat.zero_add, spans_eq_map_shift b]
  · intro token htoken
    have hread := Lexer.tokens_chars_of_infix ((List.singleton_infix_iff _ _).2 htoken)
    rwa [Lexer.tokens, chars, textOf_cons, textOf_nil, String.append_empty] at hread

/-- Cut in front of a string with an interpolation, and read alone. -/
theorem tokensOf_pieces_interpolation :
    let text := "a?? \"b\\(\"c\")\"\n"
    4 ∈ boundaries text ∧ tokensOf text = tokensOf "a?? " ++ tokensOf "\"b\\(\"c\")\"\n" ∧
      ⟨.operator, "??"⟩ ∈ tokensOf text ∧ tokensOf "??" = [⟨.operator, "??"⟩] := by
  intro text
  have hcut : 4 ∈ boundaries text := by decide +kernel
  have hmem : (⟨.operator, "??"⟩ : Token) ∈ tokensOf text := by decide +kernel
  have hpieces := ((tokensOf_pieces text).1 4 hcut).1
  have hslices : slice text 0 4 = "a?? " ∧ slice text 4 text.utf8ByteSize = "\"b\\(\"c\")\"\n" := by decide +kernel
  rw [hslices.1, hslices.2] at hpieces
  exact ⟨hcut, hpieces, hmem, (tokensOf_pieces text).2 _ hmem⟩

end SwiftTidy

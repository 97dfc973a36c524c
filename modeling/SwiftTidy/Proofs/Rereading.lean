import SwiftTidy.Proofs.Cutting

/-!
# Reading a row of tokens again

A row of tokens is written down and read again. Blanks that have come to stand next to each other are read as one,
and every other token comes back as it was if and only if the lexer cuts it off where the next one begins
(`Lexer.nonBlank_tokens_iff`). A token that is followed by the same two tokens as in some text is cut off as it was
there (`Lexer.Cuts.congr`), and so it is where the text ends before. Hence tokens that stand in a row in some text are what
is read from their own characters (`Lexer.tokens_chars_of_infix`).
-/

namespace SwiftTidy

namespace Token

/-- Whether a token is a run of blanks or a line break. -/
def isBlank (token : Token) : Bool := token.kind == .whitespace || token.kind == .newline

/-- The tokens other than blanks. -/
def nonBlank (tokens : List Token) : List Token := tokens.filter fun token => !token.isBlank

lemma nonBlank_cons (token : Token) (rest : List Token) :
    nonBlank (token :: rest) = if token.isBlank then nonBlank rest else token :: nonBlank rest := by
  cases h : token.isBlank <;> simp [nonBlank, h]

/-- The characters of a row of tokens. -/
def chars (tokens : List Token) : List Char := (textOf tokens).toList

@[simp] lemma chars_nil : chars [] = [] := by simp [chars]

@[simp] lemma chars_cons (token : Token) (rest : List Token) :
    chars (token :: rest) = token.text.toList ++ chars rest := by
  simp [chars]

end Token

namespace Lexer

open Text Token

/-- The tokens of a row of characters. -/
def tokens (cs : List Char) : List Token := (lexChars cs).map Lexed.token

lemma tokens_cons (c : Char) (cs : List Char) :
    tokens (c :: cs) = ⟨(scan c cs).kind, String.ofList (c :: cs.take (scan c cs).more)⟩ ::
      tokens (cs.drop (scan c cs).more) := by
  rw [tokens, lexChars, List.map_cons, tokens]

lemma exists_of_mem_tokens {cs : List Char} (h : token ∈ tokens cs) :
    ∃ c rest, token = ⟨(scan c rest).kind, String.ofList (c :: rest.take (scan c rest).more)⟩ := by
  induction cs using lexChars.induct with
  | case1 => simp [tokens, lexChars] at h
  | case2 c cs first ih =>
    rw [tokens_cons, List.mem_cons] at h
    exact h.elim (fun heq => ⟨c, cs, heq⟩) ih

lemma chars_tokens (cs : List Char) : chars (tokens cs) = cs := toList_textOf_lexChars cs

/-- The lexer takes a token off the beginning of a text. -/
def Cuts (token : Token) (rest : List Char) : Prop :=
  (tokens (token.text.toList ++ rest)).head? = some token

variable {c : Char} {rest : List Char} {token : Token}

lemma cuts_iff :
    Cuts token rest ↔ ∃ c w, token.text.toList = c :: w ∧ (scan c (w ++ rest)).kind = token.kind ∧
      (w ++ rest).take (scan c (w ++ rest)).more = w := by
  rw [Cuts]
  constructor
  · intro h
    obtain ⟨c, cs, hcs⟩ : ∃ c cs, token.text.toList ++ rest = c :: cs := by
      cases hcs : token.text.toList ++ rest with
      | nil => simp [hcs, tokens, lexChars] at h
      | cons c cs => exact ⟨c, cs, rfl⟩
    rw [hcs, tokens_cons, List.head?_cons, Option.some.injEq] at h
    have htext : token.text.toList = c :: cs.take (scan c cs).more := by simp [← h]
    have hrest : cs.take (scan c cs).more ++ rest = cs := by
      rw [htext, List.cons_append, List.cons.injEq] at hcs
      exact hcs.2
    exact ⟨c, _, htext, by rw [hrest, ← h], by rw [hrest]⟩
  · rintro ⟨c, w, htext, hkind, htake⟩
    rw [htext, List.cons_append, tokens_cons, hkind, htake, ← htext, String.ofList_toList]
    rfl

lemma Cuts.tokens_eq (h : Cuts token rest) : tokens (token.text.toList ++ rest) = token :: tokens rest := by
  obtain ⟨c, w, htext, hkind, htake⟩ := cuts_iff.1 h
  have hdrop : (w ++ rest).drop (scan c (w ++ rest)).more = rest := by
    have hsplit := List.take_append_drop (scan c (w ++ rest)).more (w ++ rest)
    rw [htake] at hsplit
    exact List.append_cancel_left hsplit
  rw [htext, List.cons_append, tokens_cons, hkind, htake, hdrop, ← htext, String.ofList_toList]

lemma cuts_of_tokens {cs : List Char} {back : List Token} (h : (token :: back) <:+ tokens cs) :
    Cuts token (chars back) := by
  induction cs using lexChars.induct with
  | case1 => simp [tokens, lexChars] at h
  | case2 c cs first ih =>
    rw [tokens_cons, List.suffix_cons_iff] at h
    rcases h with h | h
    · rw [List.cons.injEq] at h
      obtain ⟨rfl, rfl⟩ := h
      rw [chars_tokens, cuts_iff]
      exact ⟨c, cs.take (scan c cs).more, by simp, by simp, by simp⟩
    · exact ih h

/-! ## Blanks -/

lemma form_of_isSpace (cs : List Char) (h : isSpace c = true) : form c cs = .ordinary := by
  unfold form
  split <;> first | rfl | (exfalso; revert h; decide)

lemma isBlank_of_isSpace (h : isSpace c = true) : Text.isBlank c = true := by
  simp only [isSpace, Bool.and_eq_true] at h
  exact h.1

lemma scan_of_isSpace (cs : List Char) (h : isSpace c = true) :
    scan c cs = plain .whitespace (runLength isSpace cs) := by
  rw [scan_eq_form, form_of_isSpace cs h, Form.scan, scanOrdinary, if_pos (isBlank_of_isSpace h)]

/-- What begins with a blank is blank. -/
lemma scan_of_isBlank (cs : List Char) (h : Text.isBlank c = true) :
    ((scan c cs).kind = .whitespace ∨ (scan c cs).kind = .newline) ∧
      ∀ d ∈ cs.take (scan c cs).more, Text.isBlank d = true := by
  cases hbreak : isLineBreak c with
  | false =>
    rw [scan_of_isSpace cs (by simp [isSpace, h, hbreak])]
    refine ⟨Or.inl rfl, fun d hd => isBlank_of_isSpace ?_⟩
    simp only [plain, runLength] at hd
    rw [← List.prefix_iff_eq_take.1 (List.takeWhile_prefix isSpace)] at hd
    exact List.mem_takeWhile_imp hd
  | true =>
    simp only [isLineBreak, Bool.or_eq_true, beq_iff_eq] at hbreak
    rcases hbreak with rfl | rfl
    · simp [scan, plain]
    · by_cases hcs : ∃ rest, cs = '\n' :: rest
      · obtain ⟨rest, rfl⟩ := hcs
        simp only [scan, plain, List.take_succ_cons, List.take_zero, List.mem_singleton, forall_eq]
        decide
      · have hscan : scan '\r' cs = plain .newline 0 := by
          rw [scan]
          exact fun rest hrest => hcs ⟨rest, hrest⟩
        simp [hscan, plain]

lemma ofKeyword?_ne_blank (word : String) :
    (Kind.ofKeyword? word).getD .ident ≠ .whitespace ∧ (Kind.ofKeyword? word).getD .ident ≠ .newline := by
  unfold Kind.ofKeyword?
  split <;> simp

/-- What begins with another character is not. -/
lemma scan_of_not_isBlank (cs : List Char) (h : Text.isBlank c = false) :
    (scan c cs).kind ≠ .whitespace ∧ (scan c cs).kind ≠ .newline := by
  rw [scan_eq_form]
  cases hf : form c cs with
  | fixed kind more =>
    unfold form at hf
    split at hf <;> first | cases hf; simp [Form.scan, plain]; done | (exfalso; revert h; decide) | cases hf
  | blockComment =>
    rw [Form.scan, scanBlockComment]
    split <;> simp [plain]
  | pound =>
    rw [Form.scan, scanPound]
    split
    next => simp [plain]
    next => split <;> simp [plain]
  | atSign =>
    rw [Form.scan, scanAttribute]
    split <;> simp [plain]
  | escapedName =>
    rw [Form.scan, scanEscapedName]
    split <;> simp [plain]
  | ordinary =>
    rw [Form.scan, scanOrdinary, h]
    simp only [Bool.false_eq_true, if_false]
    split
    next => exact ofKeyword?_ne_blank _
    next =>
      split
      next => simp [plain]
      next =>
        split
        next => simp only [plain]; split <;> simp
        next => simp
  | _ => simp [Form.scan, scanString, plain]

/-- Blanks at the beginning do not change what else is read. -/
lemma nonBlank_tokens_dropWhile (cs : List Char) :
    nonBlank (tokens cs) = nonBlank (tokens (cs.dropWhile Text.isBlank)) := by
  induction cs using lexChars.induct with
  | case1 => rfl
  | case2 c cs first ih =>
    cases hc : Text.isBlank c with
    | false => rw [List.dropWhile_cons_of_neg (by simp [hc])]
    | true =>
      obtain ⟨hkind, hblank⟩ := scan_of_isBlank cs hc
      have hrest : cs.dropWhile Text.isBlank = (cs.drop (scan c cs).more).dropWhile Text.isBlank := by
        conv_lhs => rw [← List.take_append_drop (scan c cs).more cs]
        exact List.dropWhile_append_of_pos hblank
      rw [List.dropWhile_cons_of_pos hc, hrest, ← ih, tokens_cons, nonBlank_cons, if_pos]
      simpa [Token.isBlank] using hkind

end Lexer

/-- A token begins with a blank exactly if it is one, and then it holds nothing else. -/
def Token.Sound (token : Token) : Prop :=
  ∃ c w, token.text.toList = c :: w ∧ token.isBlank = Text.isBlank c ∧
    (token.isBlank = true → ∀ d ∈ w, Text.isBlank d = true)

namespace Lexer

open Text Token

variable {cs blanks rest : List Char} {row back back' : List Token} {token : Token}

lemma sound_of_mem_tokens (h : token ∈ tokens cs) : token.Sound := by
  obtain ⟨c, cs, rfl⟩ := exists_of_mem_tokens h
  refine ⟨c, cs.take (scan c cs).more, by simp, ?_, ?_⟩
  · cases hc : Text.isBlank c with
    | true => simpa [Token.isBlank] using (scan_of_isBlank cs hc).1
    | false => simpa [Token.isBlank] using scan_of_not_isBlank cs hc
  · intro hblank
    cases hc : Text.isBlank c with
    | true => exact (scan_of_isBlank cs hc).2
    | false => simp [Token.isBlank, scan_of_not_isBlank cs hc] at hblank

/-- The tokens other than blanks come back exactly if each of them is cut off from what follows it. -/
theorem nonBlank_tokens_iff (hsound : ∀ token ∈ row, token.Sound) :
    nonBlank (tokens (chars row)) = nonBlank row ↔
      ∀ token back, (token :: back) <:+ row → token.isBlank = false → Cuts token (chars back) := by
  induction row with
  | nil => simp [tokens, lexChars, nonBlank]
  | cons first row ih =>
    replace ih := ih fun token h => hsound token (by simp [h])
    obtain ⟨c, w, htext, hfirst, hblanks⟩ := hsound first (by simp)
    cases hblank : first.isBlank with
    | true =>
      have hskip : nonBlank (tokens (chars (first :: row))) = nonBlank (tokens (chars row)) := by
        rw [nonBlank_tokens_dropWhile, nonBlank_tokens_dropWhile (chars row), chars_cons]
        congr 2
        refine List.dropWhile_append_of_pos ?_
        rw [htext, List.forall_mem_cons]
        exact ⟨hfirst ▸ hblank, hblanks hblank⟩
      rw [hskip, nonBlank_cons, if_pos hblank, ih]
      constructor
      · intro h token back hsuffix hsolid
        rcases List.suffix_cons_iff.1 hsuffix with heq | hsuffix
        · simp only [List.cons.injEq] at heq
          simp [heq.1, hblank] at hsolid
        · exact h token back hsuffix hsolid
      · exact fun h token back hsuffix => h token back (hsuffix.trans (List.suffix_cons _ _))
    | false =>
      rw [nonBlank_cons first row, hblank, if_neg Bool.false_ne_true]
      constructor
      · intro h
        -- the first token that is read begins with the same character, so it is no blank either
        have hread : ∃ token rest, tokens (chars (first :: row)) = token :: rest ∧ token.isBlank = false := by
          rw [chars_cons, htext, List.cons_append, tokens_cons]
          refine ⟨_, _, rfl, ?_⟩
          simpa [Token.isBlank] using scan_of_not_isBlank (w ++ chars row) (hfirst ▸ hblank)
        obtain ⟨token, rest, hread, hsolid⟩ := hread
        rw [hread, nonBlank_cons, hsolid, if_neg Bool.false_ne_true, List.cons.injEq] at h
        obtain ⟨rfl, hrest⟩ := h
        have hcut : Cuts token (chars row) := by
          rw [Cuts, ← chars_cons, hread]
          rfl
        rw [chars_cons, hcut.tokens_eq, List.cons.injEq] at hread
        rw [← hread.2, ih] at hrest
        intro other back hsuffix hother
        rcases List.suffix_cons_iff.1 hsuffix with heq | hsuffix
        · simp only [List.cons.injEq] at heq
          obtain ⟨rfl, rfl⟩ := heq
          exact hcut
        · exact hrest other back hsuffix hother
      · intro h
        have hcut := h first row (List.suffix_refl _) hblank
        rw [chars_cons, hcut.tokens_eq, nonBlank_cons, hblank, if_neg Bool.false_ne_true, List.cons.injEq]
        exact ⟨rfl, ih.2 fun token back hsuffix => h token back (hsuffix.trans (List.suffix_cons _ _))⟩

/-! ## Tokens with the same neighbours -/

lemma fore_chars (hsound : ∀ token ∈ back', token.Sound) (h : Fore back back') : Fore (chars back) (chars back') := by
  rcases h.cases with rfl | ⟨t, rest, rfl, rfl⟩ | ⟨t, u, rest', rest, rfl, rfl⟩
  · simp [Fore]
  · obtain ⟨c, w, ht, -⟩ := hsound t (by simp)
    cases w <;> simp [Fore, ht, List.cons_prefix_cons]
  · obtain ⟨c, w, ht, -⟩ := hsound t (by simp)
    obtain ⟨d, v, hu, -⟩ := hsound u (by simp)
    cases w <;> simp [Fore, ht, hu]

/-- The head of a line ends before a row of tokens if it ends before one with the same first token. -/
lemma endsLineHead_congr (hcuts : ∀ token rest, (token :: rest) <:+ back' → Cuts token (chars rest))
    (h : ∀ token ∈ back.head?, token ∈ back'.head?) (hends : endsLineHead (chars back') = true) :
    endsLineHead (chars back) = true := by
  cases back with
  | nil => rfl
  | cons token rest =>
    obtain ⟨rest', rfl⟩ := List.head?_eq_some_iff.1 (h token rfl)
    obtain ⟨c, w, htext, hkind, htake⟩ := cuts_iff.1 (hcuts token rest' (List.suffix_refl _))
    rw [chars_cons, htext, List.cons_append, endsLineHead] at hends ⊢
    simp only [Bool.or_eq_true, Bool.and_eq_true, beq_iff_eq] at hends ⊢
    refine hends.imp_right ?_
    rintro ⟨rfl, hslash⟩
    refine ⟨rfl, ?_⟩
    -- two slashes begin a comment, so both of them belong to the token
    cases w with
    | cons d w => exact hslash
    | nil =>
      exfalso
      obtain ⟨more, hmore⟩ := List.head?_eq_some_iff.1 hslash
      simp [hmore, scan, plain, lineLength_cons, isLineBreak] at htake

/-- The blanks after a line of conditional compilation are one token. -/
lemma exists_blank_token {d : Char} (hcuts : ∀ token rest, (token :: rest) <:+ back → Cuts token (chars rest))
    (h : chars back = d :: blanks ++ rest) (hblanks : ∀ e ∈ d :: blanks, isSpace e = true)
    (hrest : endsLineHead rest = true) :
    ∃ token more, back = token :: more ∧ token.text.toList = d :: blanks ∧ chars more = rest := by
  cases back with
  | nil => simp at h
  | cons token more =>
    refine ⟨token, more, rfl, ?_⟩
    obtain ⟨c, w, htext, hkind, htake⟩ := cuts_iff.1 (hcuts token more (List.suffix_refl _))
    rw [chars_cons, htext, List.cons_append, List.cons_append, List.cons.injEq] at h
    obtain ⟨rfl, h⟩ := h
    have hspace := hblanks c (by simp)
    rw [scan_of_isSpace _ hspace, h] at htake
    simp only [plain] at htake
    rw [runLength, takeWhile_isSpace (fun e he => hblanks e (by simp [he])) hrest, List.take_left] at htake
    subst htake
    exact ⟨htext, List.append_cancel_left h⟩

/-- What follows a line of conditional compilation is the same where the same two tokens follow, up to the end of the
text if that comes before. -/
lemma exists_rest_congr (hcuts : ∀ token rest, (token :: rest) <:+ back' → Cuts token (chars rest))
    (hsound : ∀ token ∈ back', token.Sound) (hfore : Fore back back') (h : chars back' = blanks ++ rest)
    (hblanks : ∀ d ∈ blanks, isSpace d = true) (hends : endsLineHead rest = true) :
    ∃ front v z z', blanks = front ++ v ∧ chars back = front ++ z ∧ chars back' = front ++ z' ∧
      (∀ x ∈ z.head?, x ∈ z'.head?) ∧ endsLineHead z = true := by
  have hhead := (fore_chars hsound hfore).head
  cases blanks with
  | nil =>
    rw [List.nil_append] at h
    exact ⟨[], [], chars back, chars back', rfl, rfl, rfl, hhead, endsLineHead_congr hcuts hfore.head (h ▸ hends)⟩
  | cons d blanks =>
    cases back with
    | nil => exact ⟨[], d :: blanks, [], chars back', rfl, rfl, rfl, by simp, rfl⟩
    | cons token more =>
      obtain ⟨token', more', rfl, htext, rfl⟩ := exists_blank_token hcuts h hblanks hends
      obtain rfl : token' = token := by simpa using hfore.head token rfl
      refine ⟨d :: blanks, [], chars more, chars more', by simp, by rw [chars_cons, htext], h, ?_, ?_⟩
      · cases more with
        | nil => simp
        | cons next more =>
          obtain ⟨last, rfl⟩ := List.head?_eq_some_iff.1 (hfore.tail next rfl)
          obtain ⟨c, w, hnext, -⟩ := hsound next (by simp)
          simp [hnext]
      · exact endsLineHead_congr (fun t r hr => hcuts t r (hr.trans (List.suffix_cons _ _))) hfore.tail hends

/-- A line of conditional compilation is cut off as it was if the same two tokens follow. -/
lemma Cuts.congr_marker (h : Cuts token (chars back')) (hkind : token.kind = .conditionalMarker)
    (hcuts : ∀ token rest, (token :: rest) <:+ back' → Cuts token (chars rest)) (hsound : ∀ token ∈ back', token.Sound)
    (hfore : Fore back back') : Cuts token (chars back) := by
  obtain ⟨c, w, htext, hscan, hmore⟩ := cuts_iff.1 h
  have hform := form_of_kind_eq_marker (hscan.trans hkind)
  obtain rfl := eq_of_form_eq_pound hform
  have hpound : ∀ cs, scan '#' cs = scanPound cs := fun cs => rfl
  rw [hpound] at hscan hmore
  obtain ⟨hmarker, hword⟩ := scanPound_eq_marker (hscan.trans hkind)
  have hextent : markerExtent (w ++ chars back') = w.length := by
    have hlength := congrArg List.length hmore
    rwa [hmarker, List.length_take, plain, Nat.min_eq_left (markerExtent_le _)] at hlength
  obtain ⟨blanks, rest, hrest, hblanks, hends, hhead, htrim⟩ := exists_of_markerExtent hextent
  obtain ⟨front, v, z, z', rfl, hz, hz', hzhead, hzends⟩ := exists_rest_congr hcuts hsound hfore hrest hblanks hends
  have hextent' : markerExtent (w ++ chars back) = w.length := by
    rw [hz]
    exact markerExtent_congr (hz' ▸ hhead) htrim (fun d hd => isBlank_of_isSpace (hblanks d hd)) hzhead hzends
  have hword' : (w ++ chars back).takeWhile continuesName = (w ++ chars back').takeWhile continuesName :=
    takeWhile_congr (fore_chars hsound hfore).head (length_word_le hextent hword)
  rw [cuts_iff]
  refine ⟨'#', w, htext, ?_, ?_⟩
  · rw [hpound, scanPound_of_word (hword' ▸ hword), hkind]
    rfl
  · rw [hpound, scanPound_of_word (hword' ▸ hword)]
    simp only [plain]
    rw [hextent', List.take_left]

/-- A token is cut off as it was if the same two tokens follow, or fewer at the end of the text. -/
theorem Cuts.congr (h : Cuts token (chars back'))
    (hcuts : ∀ token rest, (token :: rest) <:+ back' → Cuts token (chars rest)) (hsound : ∀ token ∈ back', token.Sound)
    (hfore : Fore back back') (hname : ∀ w, token.text.toList = '`' :: w → '`' ∉ w ++ chars back' → '`' ∉ chars back) :
    Cuts token (chars back) := by
  by_cases hmarker : token.kind = .conditionalMarker
  · exact h.congr_marker hmarker hcuts hsound hfore
  · obtain ⟨c, w, htext, hkind, hmore⟩ := cuts_iff.1 h
    have hlength : (scan c (w ++ chars back')).more = w.length := by
      have hle := more_scan_le c (w ++ chars back')
      have := congrArg List.length hmore
      rwa [List.length_take, Nat.min_eq_left hle] at this
    have hscan : scan c (w ++ chars back) = scan c (w ++ chars back') := by
      refine scan_congr (fore_chars hsound hfore) hlength (by rwa [hkind]) ?_
      rintro rfl hnone
      exact hname w htext (backtickExtent?_eq_none_iff.1 hnone)
    exact cuts_iff.2 ⟨c, w, htext, by rw [hscan, hkind], by rw [hscan, hlength, List.take_left]⟩

/-! ## Pieces of a text -/

lemma chars_append (front back : List Token) : chars (front ++ back) = chars front ++ chars back := by
  simp [chars, textOf_append]

lemma tokens_chars (h : ∀ token back, (token :: back) <:+ row → Cuts token (chars back)) :
    tokens (chars row) = row := by
  induction row with
  | nil => simp [tokens, lexChars]
  | cons token row ih =>
    rw [chars_cons, (h token row (List.suffix_refl _)).tokens_eq,
      ih fun other back hback => h other back (hback.trans (List.suffix_cons _ _))]

/-- Tokens that stand in a row in a text are what is read from their characters. -/
theorem tokens_chars_of_infix (h : row <:+: tokens cs) : tokens (chars row) = row := by
  obtain ⟨front, back, hrow⟩ := h
  refine tokens_chars fun token rest hrest => ?_
  obtain ⟨u, hu⟩ := hrest
  have hsuffix : (token :: (rest ++ back)) <:+ tokens cs := ⟨front ++ u, by simp [← hrow, ← hu]⟩
  have hbehind : (rest ++ back) <:+ tokens cs := (List.suffix_cons _ _).trans hsuffix
  refine (cuts_of_tokens hsuffix).congr (fun other more hmore => cuts_of_tokens (hmore.trans hbehind))
    (fun other hother => sound_of_mem_tokens (hbehind.subset hother)) ((List.prefix_append rest back).take 2) ?_
  intro w _ hopen
  rw [chars_append] at hopen
  exact fun hmem => hopen (by simp [hmem])

end Lexer

end SwiftTidy

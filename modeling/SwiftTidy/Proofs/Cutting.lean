import SwiftTidy.Proofs.Lossless

/-!
# Where the lexer cuts

How far a token reaches is settled by the characters up to its end and the two characters after it, and it never reaches
past the end of the text (`Lexer.more_scan_le`). So a token that was cut off in one text is cut off in any other text in
which it is followed by the same two characters, or in which the text ends before (`Lexer.scan_congr`). There are two
exceptions. A line of conditional compilation looks past the blanks that follow it, and a name that lacks its second
backtick looks for one in all the rest of the text.
-/

namespace SwiftTidy.Lexer

open Text

/-! ## What comes next -/

/-- A row begins with the same two entries as another one, unless it ends before. -/
def Fore {α : Type} (row' row : List α) : Prop := row'.take 2 <+: row.take 2

namespace Fore

variable {α : Type} {row' row : List α}

lemma cases (h : Fore row' row) : row' = [] ∨ (∃ x s, row' = [x] ∧ row = x :: s) ∨
    ∃ x y s' s, row' = x :: y :: s' ∧ row = x :: y :: s := by
  rcases row' with _ | ⟨x, _ | ⟨y, s'⟩⟩ <;> rcases row with _ | ⟨a, _ | ⟨b, s⟩⟩ <;>
    simp_all [Fore, List.cons_prefix_cons]

lemma head (h : Fore row' row) : ∀ x ∈ row'.head?, x ∈ row.head? := by
  rcases h.cases with rfl | ⟨x, s, rfl, rfl⟩ | ⟨x, y, s', s, rfl, rfl⟩ <;> simp

lemma append (h : Fore row' row) (w : List α) : Fore (w ++ row') (w ++ row) := by
  rcases w with _ | ⟨a, _ | ⟨b, w⟩⟩
  · exact h
  · rcases h.cases with rfl | ⟨x, s, rfl, rfl⟩ | ⟨x, y, s', s, rfl, rfl⟩ <;> simp [Fore, List.cons_prefix_cons]
  · simp [Fore]

lemma tail {x y : α} (h : Fore (x :: row') (y :: row)) : ∀ a ∈ row'.head?, a ∈ row.head? := by
  rcases h.cases with h | ⟨x, s, h, h'⟩ | ⟨x, y, s', s, h, h'⟩ <;> simp_all

lemma eq_nil (h : Fore row' []) : row' = [] := by
  rcases h.cases with h | ⟨x, s, -, h⟩ | ⟨x, y, s', s, -, h⟩ <;> simp_all

end Fore

variable {c : Char} {w r r' cs : List Char}

/-! ## Extents -/

lemma runLength_cons (p : Char → Bool) (c : Char) (cs : List Char) :
    runLength p (c :: cs) = if p c then runLength p cs + 1 else 0 := by
  by_cases h : p c = true <;> simp [runLength, h]

lemma lineLength_cons (c : Char) (cs : List Char) :
    lineLength (c :: cs) = if isLineBreak c then 0 else lineLength cs + 1 := by
  rw [lineLength, runLength_cons]
  cases isLineBreak c <;> rfl

lemma runLength_append_eq_iff (p : Char → Bool) :
    runLength p (w ++ r) = w.length ↔ (∀ c ∈ w, p c = true) ∧ ∀ x ∈ r.head?, p x = false := by
  induction w with
  | nil =>
    cases r with
    | nil => simp [runLength]
    | cons x r => by_cases h : p x = true <;> simp [runLength_cons, h]
  | cons c w ih =>
    by_cases h : p c = true
    · simp [runLength_cons, h, ih]
    · simp [runLength_cons, h]

variable {depth n : Nat} {p : Char → Bool} {v z z' blanks : List Char}

lemma runLength_congr (hr : ∀ x ∈ r'.head?, x ∈ r.head?) (h : runLength p (w ++ r) = w.length) :
    runLength p (w ++ r') = w.length := by
  obtain ⟨hw, hx⟩ := (runLength_append_eq_iff p).1 h
  exact (runLength_append_eq_iff p).2 ⟨hw, fun x hx' => hx x (hr x hx')⟩

lemma takeWhile_congr (hr : ∀ x ∈ r'.head?, x ∈ r.head?) (h : ((w ++ r).takeWhile p).length ≤ w.length) :
    (w ++ r').takeWhile p = (w ++ r).takeWhile p := by
  induction w with
  | nil =>
    have hnil : r.takeWhile p = [] := List.length_eq_zero_iff.1 (Nat.le_zero.1 h)
    cases r' with
    | nil => exact hnil.symm
    | cons x s' =>
      obtain ⟨s, rfl⟩ := List.head?_eq_some_iff.1 (hr x rfl)
      by_cases hx : p x = true <;> simp_all
  | cons c w ih =>
    by_cases hc : p c = true
    · simp only [List.cons_append, List.takeWhile_cons, hc, if_true, List.length_cons, Nat.add_le_add_iff_right] at h ⊢
      rw [ih h]
    · simp [hc]

lemma length_le_of_commentExtent? (h : commentExtent? depth cs = some n) : 2 ≤ n ∧ n ≤ cs.length := by
  fun_induction commentExtent? depth cs generalizing n with
  | case1 depth cs ih | case3 cs depth ih =>
    obtain ⟨m, hm, rfl⟩ := Option.map_eq_some_iff.1 h
    have := ih hm
    simp only [List.length_cons]
    omega
  | case2 cs =>
    obtain rfl : 2 = n := by simpa using h
    simp
  | case4 depth c cs hopen hclose ih =>
    obtain ⟨m, hm, rfl⟩ := Option.map_eq_some_iff.1 h
    have := ih hm
    simp only [List.length_cons]
    omega
  | case5 => simp at h

lemma commentExtent?_congr (h : commentExtent? depth (w ++ r) = some w.length) (r' : List Char) :
    commentExtent? depth (w ++ r') = some w.length := by
  generalize hcs : w ++ r = cs at h
  fun_induction commentExtent? depth cs generalizing w with
  | case1 depth cs ih =>
    obtain _ | ⟨a, _ | ⟨b, w⟩⟩ := w
    · simp at h
    · simp at h
    · simp only [List.cons_append, List.cons.injEq] at hcs
      obtain ⟨rfl, rfl, hcs⟩ := hcs
      simp only [Option.map_eq_some_iff, List.length_cons, Nat.add_right_cancel_iff, exists_eq_right] at h
      simp [commentExtent?, ih hcs h]
  | case2 cs =>
    obtain _ | ⟨a, _ | ⟨b, w⟩⟩ := w
    · simp at h
    · simp at h
    · obtain rfl : w = [] := by simpa using h
      simp only [List.cons_append, List.cons.injEq] at hcs
      obtain ⟨rfl, rfl, -⟩ := hcs
      simp [commentExtent?]
  | case3 cs outer ih =>
    obtain _ | ⟨a, _ | ⟨b, w⟩⟩ := w
    · simp at h
    · simp at h
    · simp only [List.cons_append, List.cons.injEq] at hcs
      obtain ⟨rfl, rfl, hcs⟩ := hcs
      simp only [Option.map_eq_some_iff, List.length_cons, Nat.add_right_cancel_iff, exists_eq_right] at h
      simp [commentExtent?, ih hcs h]
  | case4 depth c cs hopen hclose ih =>
    obtain _ | ⟨a, w⟩ := w
    · simp at h
    · simp only [List.cons_append, List.cons.injEq] at hcs
      obtain ⟨rfl, rfl⟩ := hcs
      simp only [Option.map_eq_some_iff, List.length_cons, Nat.add_right_cancel_iff, exists_eq_right] at h
      -- the comment does not end right behind `a`, so the next character is the same in both texts
      have hlong := (length_le_of_commentExtent? h).1
      obtain ⟨b, w, rfl⟩ := List.exists_cons_of_length_pos (l := w) (by omega)
      rw [List.cons_append, commentExtent?, ih rfl h]
      · rfl
      · intro rest ha hrest
        simp_all
      · intro rest ha hrest
        simp_all
  | case5 => simp at h

lemma backtickExtent?_congr (h : backtickExtent? (w ++ r) = some w.length) (r' : List Char) :
    backtickExtent? (w ++ r') = some w.length := by
  induction w with
  | nil =>
    cases r with
    | nil => simp [backtickExtent?] at h
    | cons c r => by_cases hc : c = '`' <;> simp [backtickExtent?, hc] at h
  | cons c w ih =>
    by_cases hc : c = '`'
    · simp only [List.cons_append, backtickExtent?, hc, beq_self_eq_true, if_true, List.length_cons,
        Option.some.injEq] at h ⊢
      exact h
    · simp only [List.cons_append, backtickExtent?, beq_eq_false_iff_ne.2 hc, Bool.false_eq_true, if_false,
        List.length_cons, Option.map_eq_some_iff, Nat.add_right_cancel_iff, exists_eq_right] at h ⊢
      exact ih h

lemma backtickExtent?_eq_none_iff : backtickExtent? cs = none ↔ '`' ∉ cs := by
  induction cs with
  | nil => simp [backtickExtent?]
  | cons c cs ih =>
    by_cases hc : c = '`'
    · simp [backtickExtent?, hc]
    · simp [backtickExtent?, hc, ih, Ne.symm hc]

/-- The fraction of a number, from its point on. -/
def fractionExtent : List Char → Nat
  | '.' :: d :: rest => if d.isDigit then 2 + runLength continuesNumber rest else 0
  | _ => 0

lemma numberExtent_eq (cs : List Char) :
    numberExtent cs = runLength continuesNumber cs + fractionExtent (cs.drop (runLength continuesNumber cs)) := by
  rw [numberExtent]
  split
  next d rest hdrop =>
    rw [hdrop, fractionExtent]
    split <;> omega
  next hdrop => rw [fractionExtent, Nat.add_zero]; exact hdrop

lemma fractionExtent_eq_zero_or (cs : List Char) : fractionExtent cs = 0 ∨ 2 ≤ fractionExtent cs := by
  fun_cases fractionExtent cs <;> omega

lemma fractionExtent_congr (hr : Fore r' r) (h : fractionExtent (w ++ r) = w.length) :
    fractionExtent (w ++ r') = w.length := by
  rcases w with _ | ⟨x, _ | ⟨d, w⟩⟩
  · rcases hr.cases with rfl | ⟨x, s, rfl, rfl⟩ | ⟨x, y, s', s, rfl, rfl⟩
    · rfl
    · simp [fractionExtent]
    · by_cases hx : x = '.' <;> by_cases hy : y.isDigit = true <;> simp_all [fractionExtent]
  · have hshort := fractionExtent_eq_zero_or ([x] ++ r)
    rw [h, List.length_singleton] at hshort
    omega
  · by_cases hx : x = '.'
    · subst hx
      simp only [List.cons_append, fractionExtent, List.length_cons] at h ⊢
      split at h
      next hd =>
        rw [if_pos hd, runLength_congr hr.head (by omega)]
        omega
      next => omega
    · simp [fractionExtent, hx] at h

lemma numberExtent_congr (hr : Fore r' r) (h : numberExtent (w ++ r) = w.length) :
    numberExtent (w ++ r') = w.length := by
  rw [numberExtent_eq] at h
  obtain ⟨v, u, rfl, hv⟩ : ∃ v u, w = v ++ u ∧ runLength continuesNumber (w ++ r) = v.length := by
    generalize runLength continuesNumber (w ++ r) = n at h
    exact ⟨w.take n, w.drop n, by simp, by simp; omega⟩
  rw [List.append_assoc] at hv h ⊢
  rw [hv, List.drop_left, List.length_append] at h
  have hv' := runLength_congr (hr.append u).head hv
  rw [numberExtent_eq, hv', List.drop_left, fractionExtent_congr hr (by omega), List.length_append]

/-! ## String literals -/

/-- The next step in reading a string literal. -/
inductive Move where
  | stop (closed : Bool)
  /-- Some characters belong to the literal, and after them this is open. -/
  | go (length : Nat) (opened : List Open)

/-- What comes next in a literal, depending on what is open. -/
def move : List Open → List Char → Move
  | [], _ => .stop true
  | _ :: _, [] => .stop false
  | .literal false :: outer, '"' :: _ => .go 1 outer
  | .literal true :: outer, '"' :: '"' :: '"' :: _ => .go 3 outer
  | .literal multiline :: outer, '\\' :: '(' :: _ => .go 2 (.interpolation 0 :: .literal multiline :: outer)
  | .literal multiline :: outer, '\\' :: _ :: _ => .go 2 (.literal multiline :: outer)
  | .interpolation depth :: outer, '(' :: _ => .go 1 (.interpolation (depth + 1) :: outer)
  | .interpolation 0 :: outer, ')' :: _ => .go 1 outer
  | .interpolation (depth + 1) :: outer, ')' :: _ => .go 1 (.interpolation depth :: outer)
  | .interpolation depth :: outer, '"' :: '"' :: '"' :: _ => .go 3 (.literal true :: .interpolation depth :: outer)
  | .interpolation depth :: outer, '"' :: _ => .go 1 (.literal false :: .interpolation depth :: outer)
  | inner :: outer, c :: _ =>
    if isLineBreak c then
      match Open.afterLineBreak (inner :: outer) with
      | [] => .stop false
      | still => .go 1 still
    else .go 1 (inner :: outer)

section

attribute [local simp] move literalExtent

lemma literalExtent_eq (opened : List Open) (cs : List Char) :
    literalExtent opened cs =
      match move opened cs with
      | .stop closed => ⟨0, closed⟩
      | .go n still => (literalExtent still (cs.drop n)).after n := by
  fun_cases move opened cs <;> simp_all

variable {closed : Bool} {n : Nat} {opened still : List Open}

lemma isLineBreak_of_move (h : move opened (c :: cs) = .stop closed) (hopened : opened ≠ []) :
    isLineBreak c = true := by
  generalize hcs : c :: cs = text at h
  fun_cases move opened text <;> simp_all

/-- Where a literal ends, the next character alone decides, and the text may end there. -/
lemma move_eq_stop (hr : ∀ x ∈ r'.head?, x ∈ r.head?) (h : move opened r = .stop closed) :
    move opened r' = .stop closed := by
  rcases opened with _ | ⟨inner, outer⟩
  · simpa using h
  cases r' with
  | nil =>
    cases r with
    | nil => exact h
    | cons x s =>
      obtain rfl : closed = false := by
        generalize hopened : inner :: outer = opened at h
        generalize hcs : x :: s = text at h
        fun_cases move opened text <;> simp_all
      rfl
  | cons x s' =>
    obtain ⟨s, rfl⟩ := List.head?_eq_some_iff.1 (hr x rfl)
    have hbreak := isLineBreak_of_move h (by simp)
    have hx : x ≠ '"' ∧ x ≠ '\\' ∧ x ≠ '(' ∧ x ≠ ')' := by
      refine ⟨?_, ?_, ?_, ?_⟩ <;> rintro rfl <;> simp [isLineBreak] at hbreak
    simpa [hx, hbreak] using h

lemma one_le_of_move (h : move opened cs = .go n still) : 1 ≤ n := by
  fun_cases move opened cs <;> simp_all <;> omega

lemma move_quote (inner : Open) (outer : List Open) (hinner : inner ≠ .literal false) :
    (∀ rest, move (inner :: outer) ('"' :: '"' :: '"' :: rest) = move (inner :: outer) ['"', '"', '"']) ∧
    ∀ rest, (∀ more, rest ≠ '"' :: '"' :: more) → move (inner :: outer) ('"' :: rest) = move (inner :: outer) ['"'] := by
  constructor
  · intro rest
    rcases inner with (_ | _) | depth <;> simp_all
  · intro rest hrest
    rcases inner with (_ | _) | depth
    · exact absurd rfl hinner
    · simp [hrest]
    · simp

/-- A step in a literal is settled by the characters that it takes up and the two after them. -/
lemma move_congr (hr : Fore r' r) (h : move opened (c :: w ++ r) = .go n still) (hn : n ≤ w.length + 1) :
    move opened (c :: w ++ r') = .go n still := by
  rcases opened with _ | ⟨inner, outer⟩
  · simp at h
  rw [List.cons_append] at h ⊢
  by_cases hquote : c = '"' ∧ inner ≠ .literal false
  · obtain ⟨rfl, hinner⟩ := hquote
    obtain ⟨hthree, hone⟩ := move_quote inner outer hinner
    by_cases hcs : ∃ more, w ++ r = '"' :: '"' :: more
    · -- three quotes are taken together, so they all belong to the step
      obtain ⟨more, hmore⟩ := hcs
      have hlong : 3 ≤ n := by
        rw [hmore] at h
        rcases inner with (_ | _) | depth <;> simp at h hinner <;> omega
      rcases w with _ | ⟨b, _ | ⟨d, w⟩⟩ <;> simp at hn hmore <;> try omega
      obtain ⟨rfl, rfl, -⟩ := hmore
      rw [← h]
      exact (hthree _).trans (hthree _).symm
    · have hcs' : ∀ more, w ++ r' ≠ '"' :: '"' :: more := by
        intro more hmore
        have hfore := hr.append w
        rw [hmore] at hfore
        rcases hfore.cases with h | ⟨x, s, h, -⟩ | ⟨x, y, s', s, h, h'⟩
        · simp at h
        · simp at h
        · simp only [List.cons.injEq] at h
          exact hcs ⟨s, by rw [h', ← h.1, ← h.2.1]⟩
      rw [hone _ hcs', ← h, hone _ fun more hmore => hcs ⟨more, hmore⟩]
  · rcases inner with multiline | depth
    · by_cases hescape : c = '\\'
      · rcases w with _ | ⟨b, w⟩
        · cases r with
          | nil => rwa [hr.eq_nil]
          | cons b r => by_cases hb : b = '(' <;> simp [hescape, hb] at h hn <;> omega
        · by_cases hb : b = '(' <;> simpa [hescape, hb] using h
      · by_cases hc : c = '"'
        · obtain rfl : multiline = false := by simpa [hc] using hquote
          simpa [hc] using h
        · simpa [hc, hescape] using h
    · have hc : c ≠ '"' := by simpa using hquote
      by_cases hopen : c = '('
      · simpa [hopen] using h
      · by_cases hclose : c = ')'
        · cases depth <;> simpa [hclose] using h
        · simpa [hc, hopen, hclose] using h

end

lemma literalExtent_congr (opened : List Open) (hr : Fore r' r)
    (h : (literalExtent opened (w ++ r)).length = w.length) :
    literalExtent opened (w ++ r') = literalExtent opened (w ++ r) := by
  induction hn : w.length using Nat.strong_induction_on generalizing w opened with
  | _ n ih =>
    rw [literalExtent_eq opened (w ++ r)] at h ⊢
    rw [literalExtent_eq]
    cases hmove : move opened (w ++ r) with
    | stop closed =>
      obtain rfl : w = [] := List.length_eq_zero_iff.1 (by simpa [hmove] using h.symm)
      rw [List.nil_append] at hmove ⊢
      rw [move_eq_stop hr.head hmove]
    | go k still =>
      have hpos := one_le_of_move hmove
      simp only [hmove, Extent.after] at h ⊢
      cases w with
      | nil =>
        rw [List.length_nil] at h
        omega
      | cons a w =>
        have hle : k ≤ (a :: w).length := by omega
        rw [move_congr hr hmove hle]
        simp only
        rw [List.drop_append_of_le_length hle] at h ⊢
        have hlength : (literalExtent still ((a :: w).drop k ++ r)).length = ((a :: w).drop k).length := by
          rw [List.length_drop]
          omega
        rw [List.drop_append_of_le_length hle, ih _ (by simp at hn ⊢; omega) still hlength rfl]

lemma scanString_of_ne (h : ∀ rest, cs ≠ '"' :: '"' :: rest) :
    scanString cs = ⟨.stringLiteral, (literalExtent [.literal false] cs).length,
      if (literalExtent [.literal false] cs).closed then none else some .unterminatedString⟩ := by
  rw [scanString]
  exact fun rest hrest => h rest hrest

lemma scanString_congr (hr : Fore r' r) (h : (scanString (w ++ r)).more = w.length) :
    scanString (w ++ r') = scanString (w ++ r) := by
  by_cases hquotes : ∃ rest, w ++ r = '"' :: '"' :: rest
  · obtain ⟨rest, hrest⟩ := hquotes
    rw [hrest, scanString] at h
    simp only [Extent.after] at h
    rcases w with _ | ⟨a, _ | ⟨b, w⟩⟩
    · simp at h
    · simp at h
    · simp only [List.cons_append, List.cons.injEq] at hrest
      obtain ⟨rfl, rfl, rfl⟩ := hrest
      have hextent := literalExtent_congr [.literal true] hr (by simpa using h)
      simp only [List.cons_append, scanString, hextent]
  · have hne : ∀ rest, w ++ r ≠ '"' :: '"' :: rest := fun rest hrest => hquotes ⟨rest, hrest⟩
    have hne' : ∀ rest, w ++ r' ≠ '"' :: '"' :: rest := by
      intro rest hrest
      have hfore := hr.append w
      rcases hfore.cases with h | ⟨x, s, h, -⟩ | ⟨x, y, s', s, h, h'⟩ <;> simp_all
    rw [scanString_of_ne hne] at h ⊢
    rw [scanString_of_ne hne', literalExtent_congr _ hr h]

/-! ## Forms -/

/-- What a token turns out to be from its first characters. -/
inductive Form where
  | fixed (kind : Kind) (more : Nat)
  | lineComment
  | blockComment
  | pound
  | atSign
  | escapedName
  | string
  /-- An operator that begins with an exclamation mark. -/
  | unequal
  /-- A blank, a name, a number or an operator. -/
  | ordinary

/-- The form of the token that begins with `c`. -/
def form (c : Char) (cs : List Char) : Form :=
  match c, cs with
  | '\n', _ => .fixed .newline 0
  | '\r', '\n' :: _ => .fixed .newline 1
  | '\r', _ => .fixed .newline 0
  | '/', '/' :: _ => .lineComment
  | '/', '*' :: _ => .blockComment
  | '#', _ => .pound
  | '@', _ => .atSign
  | '`', _ => .escapedName
  | '"', _ => .string
  | '(', _ => .fixed .lparen 0
  | ')', _ => .fixed .rparen 0
  | '{', _ => .fixed .lbrace 0
  | '}', _ => .fixed .rbrace 0
  | '[', _ => .fixed .lbracket 0
  | ']', _ => .fixed .rbracket 0
  | ',', _ => .fixed .comma 0
  | ':', _ => .fixed .colon 0
  | ';', _ => .fixed .semicolon 0
  | '<', _ => .fixed .langle 0
  | '>', _ => .fixed .rangle 0
  | '.', '.' :: '.' :: _ => .fixed .operator 2
  | '.', '.' :: '<' :: _ => .fixed .operator 2
  | '.', _ => .fixed .dot 0
  | '-', '>' :: _ => .fixed .arrow 1
  | '?', '?' :: _ => .fixed .operator 1
  | '?', _ => .fixed .question 0
  | '!', '=' :: _ => .unequal
  | '!', _ => .fixed .bang 0
  | _, _ => .ordinary

/-- A blank, a name, a number or an operator, or a character that begins no token. -/
def scanOrdinary (c : Char) (cs : List Char) : Scan :=
  if isBlank c then plain .whitespace (runLength isSpace cs)
  else if beginsName c then scanName c cs
  else if c.isDigit then plain .numberLiteral (numberExtent cs)
  else if isOperatorChar c then
    plain (if c == '=' && runLength isOperatorChar cs == 0 then .equals else .operator) (runLength isOperatorChar cs)
  else { kind := .unknown, more := 0, problem? := some (.unexpected c) }

/-- The token of a form. -/
def Form.scan (c : Char) (cs : List Char) : Form → Scan
  | .fixed kind more => plain kind more
  | .lineComment => plain .lineComment (lineLength cs)
  | .blockComment => scanBlockComment (cs.drop 1)
  | .pound => scanPound cs
  | .atSign => scanAttribute cs
  | .escapedName => scanEscapedName cs
  | .string => scanString cs
  | .unequal => plain .operator (runLength isOperatorChar cs)
  | .ordinary => scanOrdinary c cs

section

attribute [local simp] form

lemma scan_eq_form (c : Char) (cs : List Char) : scan c cs = (form c cs).scan c cs := by
  unfold scan form
  -- where a pattern fails, the hypotheses say that the ones before it fail too
  split <;> simp_all [Form.scan, scanOrdinary]

/-- Unless there are two points, one more character settles the form. -/
lemma form_cons_of_ne {x : Char} (h : ¬ (c = '.' ∧ x = '.')) (s s' : List Char) : form c (x :: s) = form c (x :: s') := by
  by_cases hreturn : c = '\r'
  · by_cases hx : x = '\n' <;> simp [hreturn, hx]
  by_cases hslash : c = '/'
  · by_cases hx : x = '/'
    · simp [hslash, hx]
    · by_cases hx' : x = '*' <;> simp [hslash, hx, hx']
  by_cases hdot : c = '.'
  · have hx : x ≠ '.' := fun hx => h ⟨hdot, hx⟩
    simp [hdot, hx]
  by_cases hminus : c = '-'
  · by_cases hx : x = '>' <;> simp [hminus, hx]
  by_cases hquestion : c = '?'
  · by_cases hx : x = '?' <;> simp [hquestion, hx]
  by_cases hbang : c = '!'
  · by_cases hx : x = '=' <;> simp [hbang, hx]
  · unfold form
    split <;> first | rfl | simp_all

lemma form_cons_cons (c x y : Char) (s s' : List Char) : form c (x :: y :: s) = form c (x :: y :: s') := by
  by_cases h : c = '.' ∧ x = '.'
  · obtain ⟨rfl, rfl⟩ := h
    by_cases hy : y = '.'
    · simp [hy]
    · by_cases hy' : y = '<' <;> simp [hy, hy']
  · exact form_cons_of_ne h _ _

lemma eq_of_form_eq_escapedName (h : form c cs = .escapedName) : c = '`' := by
  unfold form at h
  split at h <;> first | rfl | cases h

end

lemma one_le_more_scanBlockComment (cs : List Char) : 1 ≤ (scanBlockComment cs).more := by
  rw [scanBlockComment]
  split <;> simp [plain]

/-- Where a token is longer than its first character, one more character settles its form, or two if it begins with a
point. -/
lemma form_eq_of_more_eq_zero (h : ((form c cs).scan c cs).more = 0) : form c cs = form c [] := by
  rcases cs with _ | ⟨x, cs⟩
  · rfl
  by_cases hreturn : c = '\r'
  · by_cases hx : x = '\n' <;> simp_all [form, Form.scan, plain]
  by_cases hslash : c = '/'
  · by_cases hx : x = '/'
    · simp_all [form, Form.scan, plain, lineLength_cons, isLineBreak]
    · by_cases hx' : x = '*'
      · have := one_le_more_scanBlockComment cs
        simp_all [form, Form.scan]
      · simp [form, hslash, hx, hx']
  by_cases hdot : c = '.'
  · rcases cs with _ | ⟨y, cs⟩
    · by_cases hx : x = '.' <;> simp_all [form]
    · by_cases hx : x = '.' <;> by_cases hy : y = '.' <;> by_cases hy' : y = '<' <;>
        simp_all [form, Form.scan, plain]
  by_cases hminus : c = '-'
  · by_cases hx : x = '>' <;> simp_all [form, Form.scan, plain]
  by_cases hquestion : c = '?'
  · by_cases hx : x = '?' <;> simp_all [form, Form.scan, plain]
  by_cases hbang : c = '!'
  · by_cases hx : x = '='
    · simp_all [form, Form.scan, plain, runLength_cons, isOperatorChar]
    · simp_all [form]
  · unfold form
    split <;> first | rfl | simp_all

/-- The form of a token is settled by the characters that belong to it and the two after them. -/
lemma form_congr (hr : Fore r' r) (h : ((form c (w ++ r)).scan c (w ++ r)).more = w.length) :
    form c (w ++ r') = form c (w ++ r) := by
  rcases w with _ | ⟨a, _ | ⟨b, w⟩⟩
  · rcases hr.cases with rfl | ⟨x, s, rfl, rfl⟩ | ⟨x, y, s', s, rfl, rfl⟩
    · exact (form_eq_of_more_eq_zero h).symm
    · by_cases hdot : c = '.' ∧ x = '.'
      · obtain ⟨rfl, rfl⟩ := hdot
        exact (form_eq_of_more_eq_zero h).symm
      · exact form_cons_of_ne hdot _ _
    · exact form_cons_cons c x y _ _
  · by_cases hdot : c = '.' ∧ a = '.'
    · obtain ⟨rfl, rfl⟩ := hdot
      exfalso
      rcases r with _ | ⟨y, r⟩
      · simp [form, Form.scan, plain] at h
      · by_cases hy : y = '.' <;> by_cases hy' : y = '<' <;> simp_all [form, Form.scan, plain]
    · exact form_cons_of_ne hdot _ _
  · exact form_cons_cons c a b _ _

/-! ## Tokens -/

section

variable (hr : Fore r' r)

include hr

lemma scanBlockComment_congr (h : (scanBlockComment (w ++ r)).more = w.length + 1) :
    scanBlockComment (w ++ r') = scanBlockComment (w ++ r) := by
  rw [scanBlockComment] at h ⊢
  rw [scanBlockComment]
  cases hextent : commentExtent? 0 (w ++ r) with
  | none =>
    obtain rfl : r = [] := List.length_eq_zero_iff.1 (by simpa [hextent] using h)
    rw [hr.eq_nil, hextent]
  | some length =>
    obtain rfl : length = w.length := by simpa [hextent, plain] using h
    rw [commentExtent?_congr hextent]

lemma scanPound_congr (h : (scanPound (w ++ r)).more = w.length)
    (hmarker : (scanPound (w ++ r)).kind ≠ .conditionalMarker) : scanPound (w ++ r') = scanPound (w ++ r) := by
  have hword : ((w ++ r).takeWhile continuesName).length ≤ w.length := by
    rw [scanPound] at h hmarker
    split at h
    next hempty => simp [List.isEmpty_iff.1 hempty]
    next hempty =>
      split at h
      next hdirective =>
        rw [if_neg hempty, if_pos hdirective] at hmarker
        exact absurd rfl hmarker
      next => exact le_of_eq h
  rw [scanPound] at hmarker ⊢
  rw [scanPound, takeWhile_congr hr.head hword]
  split
  next => rfl
  next hempty =>
    split
    next hdirective =>
      rw [if_neg hempty, if_pos hdirective] at hmarker
      exact absurd rfl hmarker
    next => rfl

lemma scanAttribute_congr (h : (scanAttribute (w ++ r)).more = w.length) :
    scanAttribute (w ++ r') = scanAttribute (w ++ r) := by
  have hlength : runLength continuesName (w ++ r) = w.length := by
    by_cases hzero : runLength continuesName (w ++ r) = 0
    · simp_all [scanAttribute]
    · simpa [scanAttribute, hzero, plain] using h
  rw [scanAttribute, scanAttribute, hlength, runLength_congr hr.head hlength]

lemma scanEscapedName_congr (h : (scanEscapedName (w ++ r)).more = w.length)
    (hname : backtickExtent? (w ++ r) = none → '`' ∉ r') : scanEscapedName (w ++ r') = scanEscapedName (w ++ r) := by
  rw [scanEscapedName] at h ⊢
  rw [scanEscapedName]
  cases hextent : backtickExtent? (w ++ r) with
  | some length =>
    obtain rfl : length = w.length := by simpa [hextent, plain] using h
    rw [backtickExtent?_congr hextent]
  | none =>
    have hw := backtickExtent?_eq_none_iff.1 hextent
    have hnone : backtickExtent? (w ++ r') = none := by
      rw [backtickExtent?_eq_none_iff, List.mem_append, not_or]
      exact ⟨fun hmem => hw (by simp [hmem]), hname hextent⟩
    have hline : lineLength (w ++ r) = w.length := by simpa [hextent] using h
    rw [hnone]
    simp only [lineLength] at hline ⊢
    rw [runLength_congr hr.head hline, hline]

lemma scanName_congr (h : (scanName c (w ++ r)).more = w.length) : scanName c (w ++ r') = scanName c (w ++ r) := by
  have hword : ((w ++ r).takeWhile continuesName).length ≤ w.length := le_of_eq h
  rw [scanName, scanName, takeWhile_congr hr.head hword]

lemma scanOrdinary_congr (h : (scanOrdinary c (w ++ r)).more = w.length) :
    scanOrdinary c (w ++ r') = scanOrdinary c (w ++ r) := by
  rw [scanOrdinary] at h ⊢
  rw [scanOrdinary]
  by_cases hblank : isBlank c = true
  · simp only [hblank, if_true, plain] at h ⊢
    rw [runLength_congr hr.head h, h]
  by_cases hname : beginsName c = true
  · simp only [hblank, hname, if_true, Bool.false_eq_true, if_false] at h ⊢
    exact scanName_congr hr h
  by_cases hdigit : c.isDigit = true
  · simp only [hblank, hname, hdigit, if_true, Bool.false_eq_true, if_false, plain] at h ⊢
    rw [numberExtent_congr hr h, h]
  by_cases hoperator : isOperatorChar c = true
  · simp only [hblank, hname, hdigit, hoperator, if_true, Bool.false_eq_true, if_false, plain] at h ⊢
    rw [runLength_congr hr.head h, h]
  · simp [hblank, hname, hdigit, hoperator]

/-- A token is cut off where it was in a text in which the same comes next, or less. -/
theorem scan_congr (h : (scan c (w ++ r)).more = w.length) (hmarker : (scan c (w ++ r)).kind ≠ .conditionalMarker)
    (hname : c = '`' → backtickExtent? (w ++ r) = none → '`' ∉ r') : scan c (w ++ r') = scan c (w ++ r) := by
  rw [scan_eq_form c (w ++ r)] at h hmarker ⊢
  rw [scan_eq_form, form_congr hr h]
  cases hf : form c (w ++ r) with
  | fixed kind more => rfl
  | lineComment =>
    have hline : lineLength (w ++ r) = w.length := by simpa [hf, Form.scan, plain] using h
    simp only [Form.scan, lineLength] at hline ⊢
    rw [runLength_congr hr.head hline, hline]
  | blockComment =>
    have hmore : (scanBlockComment ((w ++ r).drop 1)).more = w.length := by simpa [hf, Form.scan] using h
    cases w with
    | nil =>
      exfalso
      rw [scanBlockComment] at hmore
      split at hmore <;> simp [plain] at hmore
    | cons a w => exact scanBlockComment_congr hr hmore
  | pound => exact scanPound_congr hr (by simpa [hf, Form.scan] using h) (by simpa [hf, Form.scan] using hmarker)
  | atSign => exact scanAttribute_congr hr (by simpa [hf, Form.scan] using h)
  | escapedName =>
    exact scanEscapedName_congr hr (by simpa [hf, Form.scan] using h) (hname (eq_of_form_eq_escapedName hf))
  | string => exact scanString_congr hr (by simpa [hf, Form.scan] using h)
  | unequal =>
    have hrun : runLength isOperatorChar (w ++ r) = w.length := by simpa [hf, Form.scan, plain] using h
    simp only [Form.scan]
    rw [runLength_congr hr.head hrun, hrun]
  | ordinary => exact scanOrdinary_congr hr (by simpa [hf, Form.scan] using h)

end

/-! ## Lines of conditional compilation -/

/-- A line up to a comment at its end. -/
def lineHead (cs : List Char) : List Char := beforeComment (cs.take (lineLength cs))

/-- Whether the head of a line ends here: at the end of the text, at a line break, or at a line comment. -/
def endsLineHead : List Char → Bool
  | [] => true
  | c :: cs => isLineBreak c || (c == '/' && cs.head? == some '/')

lemma lineHead_of_ends (h : endsLineHead cs = true) : lineHead cs = [] := by
  cases cs with
  | nil => rfl
  | cons c cs =>
    simp only [endsLineHead, Bool.or_eq_true, Bool.and_eq_true, beq_iff_eq] at h
    rcases h with hbreak | ⟨rfl, hslash⟩
    · simp [lineHead, lineLength_cons, hbreak, beforeComment]
    · obtain ⟨rest, rfl⟩ := List.head?_eq_some_iff.1 hslash
      simp [lineHead, lineLength_cons, isLineBreak, beforeComment]

lemma lineHead_cons (h : endsLineHead (c :: cs) = false) : lineHead (c :: cs) = c :: lineHead cs := by
  simp only [endsLineHead, Bool.or_eq_false_iff] at h
  rw [lineHead, lineLength_cons, h.1, if_neg Bool.false_ne_true, List.take_succ_cons, beforeComment]
  · rfl
  · intro rest hc hrest
    -- a slash in front of a slash would have ended the line
    cases cs with
    | nil => simp at hrest
    | cons d cs =>
      have hd : d = '/' := by
        cases hlength : lineLength (d :: cs) with
        | zero => simp [hlength] at hrest
        | succ n =>
          rw [hlength, List.take_succ_cons, List.cons.injEq] at hrest
          exact hrest.1
      simp [hc, hd] at h

lemma exists_lineHead (cs : List Char) : ∃ rest, cs = lineHead cs ++ rest ∧ endsLineHead rest = true := by
  induction cs with
  | nil => exact ⟨[], rfl, rfl⟩
  | cons c cs ih =>
    cases h : endsLineHead (c :: cs) with
    | true => exact ⟨c :: cs, by rw [lineHead_of_ends h]; rfl, h⟩
    | false =>
      obtain ⟨rest, hrest, hends⟩ := ih
      exact ⟨rest, by rw [lineHead_cons h, List.cons_append, ← hrest], hends⟩

lemma isLineBreak_of_mem_lineHead (cs : List Char) {d : Char} (h : d ∈ lineHead cs) : isLineBreak d = false := by
  induction cs with
  | nil => simp [lineHead, beforeComment] at h
  | cons c cs ih =>
    cases hends : endsLineHead (c :: cs) with
    | true => simp [lineHead_of_ends hends] at h
    | false =>
      rw [lineHead_cons hends, List.mem_cons] at h
      rcases h with rfl | h
      · simp only [endsLineHead, Bool.or_eq_false_iff] at hends
        exact hends.1
      · exact ih h

lemma lineHead_congr {u : List Char} (h : lineHead (u ++ z') = u ++ v) (hhead : ∀ x ∈ z.head?, x ∈ z'.head?)
    (hz : endsLineHead z = true) : lineHead (u ++ z) = u := by
  induction u with
  | nil => exact lineHead_of_ends hz
  | cons c u ih =>
    cases hends : endsLineHead (c :: (u ++ z')) with
    | true => simp [lineHead_of_ends hends] at h
    | false =>
      rw [List.cons_append, lineHead_cons hends, List.cons_append, List.cons.injEq] at h
      have hends' : endsLineHead (c :: (u ++ z)) = false := by
        rw [endsLineHead] at hends ⊢
        cases u with
        | nil =>
          simp only [List.nil_append, Bool.or_eq_false_iff, Bool.and_eq_false_iff, beq_eq_false_iff_ne] at hends ⊢
          exact ⟨hends.1, hends.2.imp_right fun hne hslash => hne (hhead _ hslash)⟩
        | cons d u => exact hends
      rw [List.cons_append, lineHead_cons hends', ih h.2]

lemma exists_trimEnd (cs : List Char) : ∃ blanks, cs = trimEnd cs ++ blanks ∧ ∀ d ∈ blanks, isBlank d = true := by
  refine ⟨(cs.reverse.takeWhile isBlank).reverse, ?_, ?_⟩
  · rw [trimEnd, ← List.reverse_append, List.takeWhile_append_dropWhile, List.reverse_reverse]
  · intro d hd
    exact List.mem_takeWhile_imp (List.mem_reverse.1 hd)

/-- What follows a line of conditional compilation: blanks, and then the end of the line or a comment. -/
lemma exists_of_markerExtent (h : markerExtent (w ++ r) = w.length) :
    ∃ blanks rest, r = blanks ++ rest ∧ (∀ d ∈ blanks, isSpace d = true) ∧ endsLineHead rest = true ∧
      lineHead (w ++ r) = w ++ blanks ∧ trimEnd (w ++ blanks) = w := by
  obtain ⟨rest, hrest, hends⟩ := exists_lineHead (w ++ r)
  obtain ⟨blanks, hblanks, hisBlank⟩ := exists_trimEnd (lineHead (w ++ r))
  have htrim : trimEnd (lineHead (w ++ r)) = w := by
    have hwithin : trimEnd (lineHead (w ++ r)) <+: w ++ r :=
      ⟨blanks ++ rest, by rw [← List.append_assoc, ← hblanks, ← hrest]⟩
    exact (List.prefix_of_prefix_length_le hwithin (List.prefix_append w r) (le_of_eq h)).eq_of_length h
  rw [htrim] at hblanks
  refine ⟨blanks, rest, ?_, ?_, hends, hblanks, by rw [← hblanks, htrim]⟩
  · rw [hblanks, List.append_assoc] at hrest
    exact List.append_cancel_left hrest
  · intro d hd
    have hbreak : isLineBreak d = false := isLineBreak_of_mem_lineHead (w ++ r) (by rw [hblanks]; simp [hd])
    simp [isSpace, hisBlank d hd, hbreak]

lemma trimEnd_append_of_isBlank (h : ∀ d ∈ blanks, isBlank d = true) : trimEnd (w ++ blanks) = trimEnd w := by
  rw [trimEnd, trimEnd, List.reverse_append, List.dropWhile_append_of_pos]
  exact fun d hd => h d (List.mem_reverse.1 hd)

lemma markerExtent_congr {front : List Char} (h : lineHead (w ++ (front ++ z')) = w ++ (front ++ v))
    (htrim : trimEnd (w ++ (front ++ v)) = w) (hblanks : ∀ d ∈ front ++ v, isBlank d = true)
    (hhead : ∀ x ∈ z.head?, x ∈ z'.head?) (hz : endsLineHead z = true) :
    markerExtent (w ++ (front ++ z)) = w.length := by
  rw [← List.append_assoc, ← List.append_assoc] at h
  rw [markerExtent, ← lineHead, ← List.append_assoc, lineHead_congr h hhead hz,
    trimEnd_append_of_isBlank fun d hd => hblanks d (by simp [hd]), ← trimEnd_append_of_isBlank hblanks, htrim]

lemma markerExtent_le (cs : List Char) : markerExtent cs ≤ cs.length := by
  obtain ⟨rest, hrest, -⟩ := exists_lineHead cs
  obtain ⟨blanks, hblanks, -⟩ := exists_trimEnd (lineHead cs)
  have hlength := congrArg List.length hrest
  rw [hblanks] at hlength
  simp only [List.length_append] at hlength
  rw [markerExtent, ← lineHead]
  omega

lemma takeWhile_isSpace {rest : List Char} (hblanks : ∀ d ∈ blanks, isSpace d = true) (hrest : endsLineHead rest = true) :
    (blanks ++ rest).takeWhile isSpace = blanks := by
  rw [List.takeWhile_append_of_pos hblanks]
  cases rest with
  | nil => simp
  | cons c rest =>
    have hc : isSpace c = false := by
      simp only [endsLineHead, Bool.or_eq_true, Bool.and_eq_true, beq_iff_eq] at hrest
      rcases hrest with hbreak | ⟨rfl, -⟩
      · simp [isSpace, hbreak]
      · decide
    simp [hc]

/-- The word belongs to the token. -/
lemma length_word_le (h : markerExtent (w ++ r) = w.length)
    (hword : String.ofList ((w ++ r).takeWhile continuesName) ∈ ["if", "elseif", "else", "endif"]) :
    ((w ++ r).takeWhile continuesName).length ≤ w.length := by
  have hletters : ∀ d ∈ (w ++ r).takeWhile continuesName,
      isSpace d = false ∧ isLineBreak d = false ∧ d ≠ '/' := by
    have hall : ∀ word ∈ ["if", "elseif", "else", "endif"],
        (word.toList.all fun d => !isSpace d && !isLineBreak d && d != '/') = true := by
      decide
    simpa [List.all_eq_true, and_assoc] using hall _ hword
  obtain ⟨blanks, rest, rfl, hblanks, hends, -⟩ := exists_of_markerExtent h
  by_contra hlong
  -- otherwise the character after `w` belongs to the word, but it is a blank, a line break or a slash
  have hfull : ∀ d ∈ w, continuesName d = true := by
    intro d hd
    have hwithin := List.prefix_of_prefix_length_le (List.prefix_append w (blanks ++ rest))
      (List.takeWhile_prefix continuesName) (by omega)
    exact List.mem_takeWhile_imp (hwithin.subset hd)
  rw [List.takeWhile_append_of_pos hfull] at hletters hlong
  cases hnext : blanks ++ rest with
  | nil => simp [hnext] at hlong
  | cons d next =>
    have hd : d ∈ w ++ (d :: next).takeWhile continuesName := by
      by_cases hd : continuesName d = true
      · simp [hd]
      · simp [hnext, hd] at hlong
    obtain ⟨hspace, hbreak, hslash⟩ := hletters d (by rw [hnext]; exact hd)
    cases blanks with
    | cons e blanks =>
      rw [List.cons_append, List.cons.injEq] at hnext
      simp [← hnext.1, hblanks e (by simp)] at hspace
    | nil =>
      rw [List.nil_append] at hnext
      simp [hnext, endsLineHead, hbreak, hslash] at hends

/-- Only a number sign begins a line of conditional compilation. -/
lemma form_of_kind_eq_marker (h : (scan c cs).kind = .conditionalMarker) :
    form c cs = .pound := by
  rw [scan_eq_form] at h
  cases hf : form c cs with
  | pound => rfl
  | fixed kind more =>
    exfalso
    rw [hf] at h
    unfold form at hf
    split at hf <;> cases hf <;> simp [Form.scan, plain] at h
  | blockComment =>
    rw [hf, Form.scan, scanBlockComment] at h
    split at h <;> simp [plain] at h
  | atSign =>
    rw [hf, Form.scan, scanAttribute] at h
    split at h <;> simp [plain] at h
  | escapedName =>
    rw [hf, Form.scan, scanEscapedName] at h
    split at h <;> simp [plain] at h
  | ordinary =>
    exfalso
    rw [hf, Form.scan, scanOrdinary] at h
    split at h
    next => simp [plain] at h
    next =>
      split at h
      next =>
        simp only [scanName, plain] at h
        unfold Kind.ofKeyword? at h
        split at h <;> simp at h
      next =>
        split at h
        next => simp [plain] at h
        next =>
          split at h
          next => simp only [plain] at h; split at h <;> simp at h
          next => simp at h
  | _ => simp [hf, Form.scan, scanString, plain] at h

lemma scanPound_eq_marker (h : (scanPound cs).kind = .conditionalMarker) :
    scanPound cs = plain .conditionalMarker (markerExtent cs) ∧
      String.ofList (cs.takeWhile continuesName) ∈ ["if", "elseif", "else", "endif"] := by
  rw [scanPound] at h ⊢
  split at h
  next => simp [plain] at h
  next hempty =>
    split at h
    next hword => exact ⟨by rw [if_neg hempty, if_pos hword], List.contains_iff_mem.1 hword⟩
    next => simp [plain] at h

lemma scanPound_of_word (h : String.ofList (cs.takeWhile continuesName) ∈ ["if", "elseif", "else", "endif"]) :
    scanPound cs = plain .conditionalMarker (markerExtent cs) := by
  have hempty : ¬ (cs.takeWhile continuesName).isEmpty = true := by
    intro hempty
    rw [List.isEmpty_iff.1 hempty] at h
    revert h
    decide
  rw [scanPound, if_neg hempty, if_pos (List.contains_iff_mem.2 h)]

lemma eq_of_form_eq_pound (h : form c cs = .pound) : c = '#' := by
  unfold form at h
  split at h <;> first | rfl | cases h

/-! ## Tokens stay within the text -/

lemma runLength_le (p : Char → Bool) (cs : List Char) : runLength p cs ≤ cs.length :=
  (List.takeWhile_prefix p).length_le

lemma length_le_of_backtickExtent? (h : backtickExtent? cs = some n) : n ≤ cs.length := by
  induction cs generalizing n with
  | nil => simp [backtickExtent?] at h
  | cons c cs ih =>
    rw [backtickExtent?] at h
    split at h
    · simp_all
    · obtain ⟨m, hm, rfl⟩ := Option.map_eq_some_iff.1 h
      simpa using ih hm

lemma numberExtent_le (cs : List Char) : numberExtent cs ≤ cs.length := by
  have hwhole := runLength_le continuesNumber cs
  rw [numberExtent]
  split
  next d rest hdrop =>
    have hlength := congrArg List.length hdrop
    have hrest := runLength_le continuesNumber rest
    simp only [List.length_drop, List.length_cons] at hlength
    split <;> omega
  next => exact hwhole

lemma length_le_of_move {opened still : List Open} (h : move opened cs = .go n still) : n ≤ cs.length := by
  fun_cases move opened cs <;> simp_all [move] <;> omega

lemma literalExtent_le (opened : List Open) (cs : List Char) : (literalExtent opened cs).length ≤ cs.length := by
  induction hn : cs.length using Nat.strong_induction_on generalizing cs opened with
  | _ n ih =>
    rw [literalExtent_eq]
    cases hmove : move opened cs with
    | stop closed => simp
    | go k still =>
      have hpos := one_le_of_move hmove
      have hle := length_le_of_move hmove
      have hrest := ih (cs.drop k).length (by simp only [List.length_drop]; omega) still (cs.drop k) rfl
      simp only [Extent.after, List.length_drop] at hrest ⊢
      omega

/-- No token reaches past the end of the text. -/
theorem more_scan_le (c : Char) (cs : List Char) : (scan c cs).more ≤ cs.length := by
  rw [scan_eq_form]
  cases hf : form c cs with
  | fixed kind more =>
    unfold form at hf
    split at hf <;> cases hf <;> simp [Form.scan, plain]
  | lineComment => exact runLength_le _ cs
  | blockComment =>
    have hcs : cs ≠ [] := by
      rintro rfl
      unfold form at hf
      split at hf <;> simp_all
    obtain ⟨d, rest, rfl⟩ := List.exists_cons_of_ne_nil hcs
    simp only [Form.scan, List.drop_succ_cons, List.drop_zero, scanBlockComment]
    cases hextent : commentExtent? 0 rest with
    | none => simp
    | some n => simpa [plain] using (length_le_of_commentExtent? hextent).2
  | pound =>
    rw [Form.scan, scanPound]
    split
    · simp [plain]
    · split
      · exact markerExtent_le cs
      · exact (List.takeWhile_prefix continuesName).length_le
  | atSign =>
    rw [Form.scan, scanAttribute]
    split
    · simp
    · exact runLength_le _ cs
  | escapedName =>
    rw [Form.scan, scanEscapedName]
    split
    next n hextent => exact length_le_of_backtickExtent? hextent
    next => exact runLength_le _ cs
  | string =>
    rw [Form.scan]
    by_cases hquotes : ∃ rest, cs = '"' :: '"' :: rest
    · obtain ⟨rest, rfl⟩ := hquotes
      simpa [scanString, Extent.after] using literalExtent_le [.literal true] rest
    · rw [scanString_of_ne fun rest hrest => hquotes ⟨rest, hrest⟩]
      exact literalExtent_le _ cs
  | unequal => exact runLength_le _ cs
  | ordinary =>
    rw [Form.scan, scanOrdinary]
    split
    · exact runLength_le _ cs
    · split
      · exact (List.takeWhile_prefix continuesName).length_le
      · split
        · exact numberExtent_le cs
        · split
          · exact runLength_le _ cs
          · simp

end SwiftTidy.Lexer

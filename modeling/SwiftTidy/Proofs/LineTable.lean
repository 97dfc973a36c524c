import SwiftTidy.Proofs.LineEnds
import Mathlib.Data.Prod.Lex

/-!
# The table of lines

Positions can be turned back into offsets: an offset between two characters is where its line begins, and then as many
characters as its column says (`Lines.position_inverts`). The lines tile the text, with one terminator between each two
of them, and the line breaks among the tokens end where lines begin (`Lines.lines_tile`).
-/

namespace SwiftTidy

open Text

/-! ## Offsets between characters -/

lemma isValid_iff {text : String} {offset : Nat} :
    String.Pos.Raw.IsValid text ⟨offset⟩ ↔ ∃ front back, text.toList = front ++ back ∧ offset = byteLength front := by
  rw [String.Pos.Raw.isValid_iff_exists_append]
  constructor
  · rintro ⟨front, back, rfl, hoffset⟩
    refine ⟨front.toList, back.toList, by simp, ?_⟩
    rw [byteLength_toList]
    exact congrArg String.Pos.Raw.byteIdx hoffset
  · rintro ⟨front, back, htext, rfl⟩
    refine ⟨String.ofList front, String.ofList back, ?_, ?_⟩
    · rw [← String.ofList_append, ← htext, String.ofList_toList]
    · rw [← String.toList_ofList (l := front), byteLength_toList, String.toList_ofList]
      rfl

namespace Lines

lemma size_ofText (text : String) : (ofText text).size = text.utf8ByteSize := byteLength_toList text

lemma charsIn?_append (front back : List Char) : charsIn? (byteLength front) (front ++ back) = some front.length := by
  induction front with
  | nil => simp [charsIn?]
  | cons c front ih =>
    have hpos := c.utf8Size_pos
    obtain ⟨n, hn⟩ : ∃ n, byteLength (c :: front) = n + 1 :=
      ⟨byteLength (c :: front) - 1, by rw [byteLength_cons]; omega⟩
    have hle : c.utf8Size ≤ n + 1 := by
      rw [← hn, byteLength_cons]
      omega
    rw [hn, List.cons_append, charsIn?, if_pos hle, ← hn, byteLength_cons, Nat.add_sub_cancel_left, ih]
    simp

/-! ## Lines begin one after the other -/

lemma pairwise_startsIn (offset : Nat) (cs : List Char) : (startsIn offset cs).Pairwise (· < ·) := by
  induction cs generalizing offset with
  | nil => exact .nil
  | cons c cs ih =>
    rw [startsIn]
    split
    · exact List.pairwise_cons.2 ⟨fun start hstart => lt_of_mem_startsIn hstart, ih _⟩
    · exact ih _

lemma pairwise_starts (lines : Lines) : lines.starts.Pairwise (· < ·) :=
  List.pairwise_cons.2 ⟨fun _ hstart => lt_of_mem_startsIn hstart, pairwise_startsIn 0 lines.chars⟩

lemma filter_le_prefix {starts : List Nat} (h : starts.Pairwise (· < ·)) (offset : Nat) :
    starts.filter (· ≤ offset) <+: starts := by
  induction h with
  | nil => exact List.nil_prefix
  | @cons start starts hlater _ ih =>
    rw [List.filter_cons]
    split
    next => exact (List.prefix_cons_inj start).2 ih
    next hstart =>
      have hnone : starts.filter (· ≤ offset) = [] := List.filter_eq_nil_iff.2 fun later hmem => by
        have := hlater later hmem
        simp only [decide_eq_true_eq] at hstart ⊢
        omega
      rw [hnone]
      exact List.nil_prefix

/-- The line of an offset begins where the last line begins that has begun. -/
lemma start?_line_position (lines : Lines) (offset : Nat) :
    lines.start? (lines.position offset).line =
      some ((lines.starts.filter (· ≤ min offset lines.size)).getLastD 0) := by
  have hfore := filter_le_prefix lines.pairwise_starts (min offset lines.size)
  have hbegun : lines.starts.filter (· ≤ min offset lines.size) ≠ [] := by
    rw [starts, List.filter_cons, if_pos (by simp)]
    simp
  have hline : (lines.position offset).line = (lines.starts.filter (· ≤ min offset lines.size)).length := rfl
  rw [hline]
  generalize lines.starts.filter (· ≤ min offset lines.size) = begun at hfore hbegun
  obtain ⟨later, hstarts⟩ := hfore
  have hlength := List.length_pos_iff.2 hbegun
  rw [start?, if_neg (by omega), ← hstarts, List.getElem?_append_left (by omega), ← List.getLast?_eq_getElem?,
    List.getLast?_eq_some_getLast hbegun, List.getLastD_eq_getLast?, List.getLast?_eq_some_getLast hbegun,
    Option.getD_some]

variable {c : Char} {front back cs : List Char} {lines : Lines} {offset : Nat} {span : Span}

/-- An offset between two characters, seen from where its line begins. -/
lemma exists_line_of_position (h : lines.chars = front ++ back) :
    ∃ before middle, front = before ++ middle ∧
      lines.start? (lines.position (byteLength front)).line = some (byteLength before) ∧
      (lines.position (byteLength front)).column = middle.length + 1 := by
  have hmin : min (byteLength front) lines.size = byteLength front := by
    rw [size, h, byteLength_append]
    omega
  have hstart := start?_line_position lines (byteLength front)
  rw [hmin] at hstart
  have hle : (lines.starts.filter (· ≤ byteLength front)).getLastD 0 ≤ byteLength front := by
    obtain ⟨start, hline, hle⟩ := exists_start?_le h
    rw [← line_position h, hstart, Option.some.injEq] at hline
    omega
  obtain ⟨before, rest, hchars, hbefore, -⟩ := exists_of_start? hstart
  obtain ⟨middle, rfl, rfl⟩ := exists_append_of_le (hchars.symm.trans h) (hbefore ▸ hle)
  refine ⟨before, middle, rfl, by rw [hstart, hbefore], ?_⟩
  have hcolumn : (lines.position (byteLength (before ++ middle))).column =
      (charsIn? (byteLength (before ++ middle) - byteLength before) (dropBytes (byteLength before) lines.chars)).getD
        (byteLength (before ++ middle) - byteLength before) + 1 := by
    rw [position]
    simp only [hmin, hbefore]
  rw [hcolumn, hchars, dropBytes_append, byteLength_append, Nat.add_sub_cancel_left, charsIn?_append, Option.getD_some]

/-- The place of a position on a page: first the line counts, and then the column. -/
def place (lines : Lines) (offset : Nat) : Nat ×ₗ Nat :=
  toLex ((lines.position offset).line, (lines.position offset).column)

lemma place_lt_place {middle : List Char} (h : lines.chars = front ++ (middle ++ back)) (hmiddle : middle ≠ []) :
    lines.place (byteLength front) < lines.place (byteLength (front ++ middle)) := by
  have h' : lines.chars = front ++ middle ++ back := by rw [h, List.append_assoc]
  have hline := line_position h
  have hline' := line_position h'
  obtain ⟨before, head, hfront, hstart, hcolumn⟩ := exists_line_of_position h
  obtain ⟨before', head', hfront', hstart', hcolumn'⟩ := exists_line_of_position h'
  rw [lineEnds_append] at hline'
  rw [place, place, Prod.Lex.toLex_lt_toLex]
  by_cases hends : lineEnds middle back = 0
  · -- both offsets are on one line, and the later one has more characters of it before it
    have hsame : (lines.position (byteLength (front ++ middle))).line = (lines.position (byteLength front)).line := by
      omega
    refine Or.inr ⟨hsame.symm, ?_⟩
    rw [hsame, hstart, Option.some.injEq] at hstart'
    rw [hfront, List.append_assoc] at hfront'
    have hbefore : before = before' := by
      obtain ⟨extra, hextra, -⟩ := exists_append_of_le hfront' hstart'.le
      rw [hextra, byteLength_append] at hstart'
      have hnone : byteLength extra = 0 := by omega
      rw [hextra, eq_nil_of_byteLength_eq_zero hnone, List.append_nil]
    subst hbefore
    rw [← List.append_cancel_left hfront', List.length_append] at hcolumn'
    have := List.length_pos_iff.2 hmiddle
    simp only
    omega
  · exact Or.inl (by simp only; omega)

/-- **Positions can be turned back into offsets.** An offset between two characters is where its line begins, and then
the bytes of as many characters as stand before its column. Hence later offsets have later positions, and what lies
beyond the end has the position of the end. -/
theorem position_inverts (text : String) :
    (∀ offset, String.Pos.Raw.IsValid text ⟨offset⟩ →
      let position := (ofText text).position offset
      ∃ start before rest, (ofText text).start? position.line = some start ∧ start ≤ offset ∧
        text.toList = before ++ rest ∧ start = byteLength before ∧
        1 ≤ position.column ∧ position.column - 1 ≤ rest.length ∧
        offset = start + byteLength (rest.take (position.column - 1))) ∧
    StrictMonoOn (ofText text).place {offset | String.Pos.Raw.IsValid text ⟨offset⟩} ∧
    ∀ offset, text.utf8ByteSize ≤ offset →
      (ofText text).position offset = (ofText text).position text.utf8ByteSize := by
  refine ⟨?_, ?_, ?_⟩
  · intro offset hvalid
    obtain ⟨front, back, htext, rfl⟩ := isValid_iff.1 hvalid
    have hchars : (ofText text).chars = front ++ back := htext
    obtain ⟨before, middle, rfl, hstart, hcolumn⟩ := exists_line_of_position hchars
    refine ⟨byteLength before, before, middle ++ back, hstart, ?_, by rw [htext, List.append_assoc], rfl, ?_⟩
    · rw [byteLength_append]
      omega
    · rw [hcolumn, Nat.add_sub_cancel, List.take_left, byteLength_append, List.length_append]
      omega
  · intro offset hvalid later hlater hlt
    obtain ⟨front, back, htext, rfl⟩ := isValid_iff.1 hvalid
    obtain ⟨front', back', htext', rfl⟩ := isValid_iff.1 hlater
    obtain ⟨middle, rfl, rfl⟩ := exists_append_of_le (htext.symm.trans htext') hlt.le
    refine place_lt_place htext ?_
    rintro rfl
    simp at hlt
  · intro offset hoffset
    rw [position, position, size_ofText, Nat.min_eq_right hoffset, Nat.min_self]

/-- The last character of a text with two kinds of line ends and a character of two bytes. -/
theorem position_inverts_wide :
    let text := "a\r\nb\r\u00e9c"
    String.Pos.Raw.IsValid text ⟨7⟩ ∧ String.Pos.Raw.IsValid text ⟨8⟩ ∧
      (∃ start before rest, (ofText text).start? 3 = some start ∧ start ≤ 7 ∧ text.toList = before ++ rest ∧
        start = byteLength before ∧ 7 = start + byteLength (rest.take 1)) ∧
      (ofText text).place 7 < (ofText text).place 8 ∧ (ofText text).position 9 = ⟨8, 3, 3⟩ := by
  intro text
  have hvalid : String.Pos.Raw.IsValid text ⟨7⟩ := isValid_iff.2 ⟨"a\r\nb\r\u00e9".toList, ['c'], by decide, by decide⟩
  have hend : String.Pos.Raw.IsValid text ⟨8⟩ := isValid_iff.2 ⟨text.toList, [], by simp, by decide⟩
  have hposition : (ofText text).position 7 = ⟨7, 3, 2⟩ := by decide
  have hlast : (ofText text).position 8 = ⟨8, 3, 3⟩ := by decide
  obtain ⟨hback, hmono, hbeyond⟩ := position_inverts text
  obtain ⟨start, before, rest, hstart, hle, htext, hbefore, -, -, hoffset⟩ := hback 7 hvalid
  rw [hposition] at hstart hoffset
  exact ⟨hvalid, hend, ⟨start, before, rest, hstart, hle, htext, hbefore, hoffset⟩, hmono hvalid hend (by decide),
    (hbeyond 9 (by decide)).trans hlast⟩

/-! ## Terminators -/

/-- The terminators of the lines of `cs`, where `cs` stands at `offset`: line feeds, carriage returns, and both
together, which count as one. -/
def terminatorsFrom (offset : Nat) : List Char → List Span
  | [] => []
  | '\r' :: '\n' :: rest => ⟨offset, offset + 2⟩ :: terminatorsFrom (offset + 2) rest
  | '\n' :: rest => ⟨offset, offset + 1⟩ :: terminatorsFrom (offset + 1) rest
  | '\r' :: rest => ⟨offset, offset + 1⟩ :: terminatorsFrom (offset + 1) rest
  | c :: rest => terminatorsFrom (offset + c.utf8Size) rest

/-- The terminators of the lines of a text. -/
def terminators (text : String) : List Span := terminatorsFrom 0 text.toList

/-- Whether a line feed or a carriage return stands at an offset of a text. -/
def HoldsBreak (text : String) (offset : Nat) : Prop :=
  ∃ front c back, text.toList = front ++ c :: back ∧ byteLength front = offset ∧ (c = '\n' ∨ c = '\r')

/-- A line begins after each terminator. -/
lemma startsIn_eq_stops (offset : Nat) (cs : List Char) :
    startsIn offset cs = (terminatorsFrom offset cs).map Span.stop := by
  fun_induction terminatorsFrom offset cs with
  | case1 offset => rfl
  | case2 offset rest ih =>
    have hfeed : offset + 1 + 1 = offset + 2 := rfl
    simp [startsIn, endsLine, Char.utf8Size, hfeed, ih]
  | case3 offset rest ih => simp [startsIn, endsLine, Char.utf8Size, ih]
  | case4 offset rest hfeed ih =>
    have hends : endsLine '\r' rest = true := by
      cases rest with
      | nil => rfl
      | cons d rest =>
        have hd : d ≠ '\n' := fun hd => hfeed rest (by rw [hd])
        simp [endsLine, hd]
    simp [startsIn, hends, Char.utf8Size, ih]
  | case5 offset c rest hboth hfeed hreturn ih =>
    have hends : endsLine c rest = false := by
      have hbreak : isLineBreak c = false := by
        simp only [isLineBreak, Bool.or_eq_false_iff, beq_eq_false_iff_ne]
        exact ⟨hfeed, hreturn⟩
      cases hends : endsLine c rest with
      | false => rfl
      | true => simpa [hbreak] using isLineBreak_of_endsLine hends
    rw [startsIn, hends, if_neg Bool.false_ne_true, ih]

lemma starts_eq (text : String) : (ofText text).starts = 0 :: (terminators text).map Span.stop := by
  rw [starts, startsIn_eq_stops]
  rfl

/-- The first line of a text with a terminator ends where the terminator begins. -/
lemma exists_of_terminatorsFrom_cons {later : List Span} (h : terminatorsFrom offset cs = span :: later) :
    ∃ line mark rest, cs = line ++ (mark ++ rest) ∧ (∀ c ∈ line, isLineBreak c = false) ∧
      mark ∈ [['\r', '\n'], ['\n'], ['\r']] ∧
      span = ⟨offset + byteLength line, offset + byteLength line + byteLength mark⟩ ∧
      later = terminatorsFrom span.stop rest := by
  fun_induction terminatorsFrom offset cs with
  | case1 offset => simp at h
  | case2 offset rest ih =>
    obtain ⟨rfl, rfl⟩ := List.cons.inj h
    exact ⟨[], ['\r', '\n'], rest, rfl, by simp, by simp, by simp [Char.utf8Size], rfl⟩
  | case3 offset rest ih =>
    obtain ⟨rfl, rfl⟩ := List.cons.inj h
    exact ⟨[], ['\n'], rest, rfl, by simp, by simp, by simp [Char.utf8Size], rfl⟩
  | case4 offset rest hfeed ih =>
    obtain ⟨rfl, rfl⟩ := List.cons.inj h
    exact ⟨[], ['\r'], rest, rfl, by simp, by simp, by simp [Char.utf8Size], rfl⟩
  | case5 offset c rest hboth hfeed hreturn ih =>
    obtain ⟨line, mark, back, rfl, hline, hmark, hspan, hlater⟩ := ih h
    have hc : isLineBreak c = false := by
      simp only [isLineBreak, Bool.or_eq_false_iff, beq_eq_false_iff_ne]
      exact ⟨hfeed, hreturn⟩
    refine ⟨c :: line, mark, back, rfl, List.forall_mem_cons.2 ⟨hc, hline⟩, hmark, ?_, hlater⟩
    rw [hspan, byteLength_cons, ← Nat.add_assoc]

/-- Each terminator ends the line that begins after the one before it. -/
lemma exists_of_getElem?_terminatorsFrom {n : Nat} (h : (terminatorsFrom offset cs)[n]? = some span) :
    ∃ front line mark rest, cs = front ++ (line ++ (mark ++ rest)) ∧ (∀ c ∈ line, isLineBreak c = false) ∧
      mark ∈ [['\r', '\n'], ['\n'], ['\r']] ∧
      (offset :: (terminatorsFrom offset cs).map Span.stop)[n]? = some (offset + byteLength front) ∧
      span.start = offset + byteLength (front ++ line) ∧ span.stop = span.start + byteLength mark := by
  induction n generalizing offset cs with
  | zero =>
    cases hall : terminatorsFrom offset cs with
    | nil => simp [hall] at h
    | cons first later =>
      obtain rfl : first = span := by simpa [hall] using h
      obtain ⟨line, mark, rest, hcs, hline, hmark, hspan, -⟩ := exists_of_terminatorsFrom_cons hall
      exact ⟨[], line, mark, rest, hcs, hline, hmark, by simp, by simp [hspan], by simp [hspan]⟩
  | succ n ih =>
    cases hall : terminatorsFrom offset cs with
    | nil => simp [hall] at h
    | cons first later =>
      obtain ⟨head, close, rest, hcs, -, -, hfirst, hlater⟩ := exists_of_terminatorsFrom_cons hall
      rw [hall, List.getElem?_cons_succ, hlater] at h
      obtain ⟨front, line, mark, back, hrest, hline, hmark, hstart, hspan, hstop⟩ := ih h
      have hbytes : ∀ cs, first.stop + byteLength cs = offset + byteLength (head ++ (close ++ cs)) := fun cs => by
        simp only [hfirst, byteLength_append]
        omega
      refine ⟨head ++ (close ++ front), line, mark, back, by simp [hcs, hrest], hline, hmark, ?_, ?_, hstop⟩
      · rw [List.map_cons, List.getElem?_cons_succ, hlater, hstart, hbytes]
      · rw [hspan, hbytes, List.append_assoc, List.append_assoc]

/-- A line ends at the first line break behind its beginning, or else with the text. -/
lemma exists_stop_of_start? {text : String} {line start : Nat} (h : (ofText text).start? line = some start) :
    ∃ stop, (ofText text).stop? line = some stop ∧ start ≤ stop ∧
      (HoldsBreak text stop ∨ stop = text.utf8ByteSize) ∧
      ∀ offset, start ≤ offset → offset < stop → ¬ HoldsBreak text offset := by
  obtain ⟨front, back, hchars, rfl, -⟩ := exists_of_start? h
  have htext : text.toList = front ++ back := hchars
  have hback := List.takeWhile_append_dropWhile (p := fun c => !isLineBreak c) (l := back)
  refine ⟨_, stop?_eq hchars h, by omega, ?_, ?_⟩
  · cases hrest : back.dropWhile fun c => !isLineBreak c with
    | nil =>
      right
      rw [hrest, List.append_nil] at hback
      rw [hback, ← byteLength_append, ← htext, byteLength_toList]
    | cons c rest =>
      left
      have hc : isLineBreak c = true := by
        have hhead := List.head?_dropWhile_not (fun c => !isLineBreak c) back
        simpa [hrest] using hhead
      refine ⟨front ++ back.takeWhile fun c => !isLineBreak c, c, rest, ?_, byteLength_append _ _, ?_⟩
      · rw [htext, List.append_assoc, ← hrest, hback]
      · simpa [isLineBreak] using hc
  · rintro offset hstart hstop ⟨front', c, back', htext', rfl, hc⟩
    obtain ⟨middle, rfl, hmiddle⟩ := exists_append_of_le (htext.symm.trans htext') hstart
    -- the character at the offset is one of those before the first line break
    rw [byteLength_append] at hstop
    obtain ⟨extra, hextra, htail⟩ := exists_append_of_le (hmiddle.symm.trans hback.symm) (by omega)
    cases extra with
    | nil =>
      rw [hextra, List.append_nil] at hstop
      omega
    | cons d extra =>
      obtain rfl : c = d := (List.cons.inj htail).1
      have hmem : c ∈ back.takeWhile fun c => !isLineBreak c := by simp [hextra]
      have hbreak := List.mem_takeWhile_imp hmem
      rcases hc with rfl | rfl <;> simp [isLineBreak] at hbreak

/-! ## Line breaks among the tokens -/

lemma scan_of_kind_newline (h : (Lexer.scan c cs).kind = .newline) :
    (c = '\n' ∧ (Lexer.scan c cs).more = 0) ∨
      c = '\r' ∧ ((∃ rest, cs = '\n' :: rest ∧ (Lexer.scan c cs).more = 1) ∨
        cs.head? ≠ some '\n' ∧ (Lexer.scan c cs).more = 0) := by
  have hblank : isBlank c = true := by
    cases hblank : isBlank c with
    | true => rfl
    | false => exact absurd h (Lexer.scan_of_not_isBlank cs hblank).2
  have hbreak : isLineBreak c = true := by
    cases hbreak : isLineBreak c with
    | true => rfl
    | false =>
      rw [Lexer.scan_of_isSpace cs (by simp [Lexer.isSpace, hblank, hbreak])] at h
      simp [Lexer.plain] at h
  simp only [isLineBreak, Bool.or_eq_true, beq_iff_eq] at hbreak
  rcases hbreak with rfl | rfl
  · exact Or.inl ⟨rfl, rfl⟩
  · refine Or.inr ⟨rfl, ?_⟩
    by_cases hfeed : cs.head? = some '\n'
    · obtain ⟨rest, rfl⟩ := List.head?_eq_some_iff.1 hfeed
      exact Or.inl ⟨rest, rfl, rfl⟩
    · refine Or.inr ⟨hfeed, ?_⟩
      rw [Lexer.scan]
      · rfl
      · rintro rest rfl
        simp at hfeed

lemma stop_mem_startsIn_cons (h : (Lexer.scan c cs).kind = .newline) (offset : Nat) :
    offset + byteLength (c :: cs.take (Lexer.scan c cs).more) ∈ startsIn offset (c :: cs) := by
  rcases scan_of_kind_newline h with ⟨rfl, hmore⟩ | ⟨rfl, ⟨rest, rfl, hmore⟩ | ⟨hfeed, hmore⟩⟩
  · simp [hmore, startsIn, endsLine]
  · simp [hmore, startsIn, endsLine, Nat.add_assoc]
  · simp [hmore, startsIn, endsLine, hfeed]

/-- A line begins behind each token that is a line break. -/
lemma stop_mem_startsIn {entry : Token × Span} (hkind : entry.1.kind = .newline) :
    ∀ offset, entry ∈ (Lexer.tokens cs).zip (Token.spans offset (Lexer.tokens cs)) →
      entry.2.stop ∈ startsIn offset cs := by
  induction cs using Lexer.lexChars.induct with
  | case1 => simp [Lexer.tokens, Lexer.lexChars]
  | case2 c cs first ih =>
    intro offset h
    have hcs : c :: cs.take (Lexer.scan c cs).more ++ cs.drop (Lexer.scan c cs).more = c :: cs := by
      rw [List.cons_append, List.take_append_drop]
    have hwidth : (Token.mk (Lexer.scan c cs).kind (String.ofList (c :: cs.take (Lexer.scan c cs).more))).width =
        byteLength (c :: cs.take (Lexer.scan c cs).more) := by
      rw [Token.width, ← byteLength_toList, String.toList_ofList]
    rw [Lexer.tokens_cons, Token.spans, List.zip_cons_cons, List.mem_cons, hwidth] at h
    rcases h with rfl | h
    · exact stop_mem_startsIn_cons hkind offset
    · obtain ⟨begun, hstarts, -, -⟩ :=
        exists_startsIn_append offset (c :: cs.take (Lexer.scan c cs).more) (cs.drop (Lexer.scan c cs).more)
      rw [hcs] at hstarts
      rw [hstarts]
      exact List.mem_append_right begun (ih _ h)

/-! ## The tiling -/

lemma line_eq_terminators (text : String) (offset : Nat) :
    ((ofText text).position offset).line = 1 + ((terminators text).filter fun mark => mark.stop ≤ offset).length := by
  have hline : ((ofText text).position offset).line =
      ((ofText text).starts.filter (· ≤ min offset (ofText text).size)).length := rfl
  -- no line begins beyond the end, so the clamp makes no difference
  have hclamp : (ofText text).starts.filter (· ≤ min offset (ofText text).size) =
      (ofText text).starts.filter (· ≤ offset) := by
    refine List.filter_congr fun start hstart => ?_
    have hsize : start ≤ (ofText text).size := by
      rw [starts, List.mem_cons] at hstart
      rcases hstart with rfl | hstart
      · omega
      · simpa [size] using le_of_mem_startsIn hstart
    simp only [decide_eq_decide]
    omega
  rw [hline, hclamp, starts_eq, List.filter_cons, if_pos (by simp), List.length_cons, List.filter_map, List.length_map,
    Nat.add_comm]
  rfl

/-- **Lines tile the text.** Lines begin one after the other, each between two characters, and the line of an offset
counts the terminators that end at it or before. A line ends at the first line break behind its beginning, or else with
the text, and the next line begins behind exactly one terminator there. A line begins behind each token that is a line
break. -/
theorem lines_tile (text : String) :
    (ofText text).starts.head? = some 0 ∧ (ofText text).starts.Pairwise (· < ·) ∧
    (∀ offset, ((ofText text).position offset).line =
      1 + ((terminators text).filter fun mark => mark.stop ≤ offset).length) ∧
    (∀ line start, (ofText text).start? line = some start →
      ∃ stop, (ofText text).stop? line = some stop ∧ start ≤ stop ∧
        (HoldsBreak text stop ∨ stop = text.utf8ByteSize) ∧
        ∀ offset, start ≤ offset → offset < stop → ¬ HoldsBreak text offset) ∧
    (∀ line, 1 ≤ line → line < (ofText text).count →
      ∃ stop next, (ofText text).stop? line = some stop ∧ (ofText text).start? (line + 1) = some next ∧
        (terminators text)[line - 1]? = some ⟨stop, next⟩ ∧
        ∃ front mark back, text.toList = front ++ (mark ++ back) ∧ stop = byteLength front ∧
          next = stop + byteLength mark ∧ mark ∈ [['\r', '\n'], ['\n'], ['\r']]) ∧
    (∀ start ∈ (ofText text).starts, String.Pos.Raw.IsValid text ⟨start⟩) ∧
    ∀ entry ∈ (tokensOf text).zip (Token.spans 0 (tokensOf text)),
      entry.1.kind = .newline → entry.2.stop ∈ (ofText text).starts := by
  refine ⟨rfl, pairwise_starts _, line_eq_terminators text, fun line start => exists_stop_of_start?, ?_, ?_, ?_⟩
  · intro line hline hcount
    obtain ⟨n, rfl⟩ : ∃ n, line = n + 1 := ⟨line - 1, by omega⟩
    have hlt : n < (terminators text).length := by
      rw [count, starts_eq, List.length_cons, List.length_map] at hcount
      omega
    have hmark : (terminators text)[n]? = some (terminators text)[n] := List.getElem?_eq_getElem hlt
    obtain ⟨front, line, mark, rest, htext, hbreak, hkind, hstart, hstop, hnext⟩ :=
      exists_of_getElem?_terminatorsFrom hmark
    rw [Nat.zero_add] at hstart hstop
    have hbegins : (ofText text).start? (n + 1) = some (byteLength front) := by
      rw [start?, if_neg (by omega), starts_eq]
      exact hstart
    refine ⟨(terminators text)[n].start, (terminators text)[n].stop, ?_, ?_, hmark, front ++ line, mark, rest, ?_, ?_⟩
    · have hline : (line ++ (mark ++ rest)).takeWhile (fun c => !isLineBreak c) = line := by
        rw [List.takeWhile_append_of_pos (by simpa using hbreak)]
        simp only [List.mem_cons, List.not_mem_nil, or_false] at hkind
        rcases hkind with rfl | rfl | rfl <;> simp [isLineBreak]
      rw [stop?_eq htext hbegins, hline, hstop, byteLength_append]
    · simp [start?, starts_eq, hmark]
    · rw [htext, List.append_assoc]
    · exact ⟨hstop, hnext, hkind⟩
  · intro start hstart
    obtain ⟨n, hn⟩ := List.mem_iff_getElem?.1 hstart
    have hline : (ofText text).start? (n + 1) = some start := by simpa [start?] using hn
    obtain ⟨front, back, hchars, rfl, -⟩ := exists_of_start? hline
    exact isValid_iff.2 ⟨front, back, hchars, rfl⟩
  · intro entry hentry hkind
    exact List.mem_cons_of_mem _ (stop_mem_startsIn hkind 0 hentry)

/-- A string literal reaches over a carriage return, so that the token for the line break is only the line feed. -/
theorem lines_tile_escaped :
    let text := "\"\\\r\nb\r"
    let entry : Token × Span := (⟨.newline, "\n"⟩, ⟨3, 4⟩)
    1 < (ofText text).count ∧ (∃ stop next, (ofText text).stop? 1 = some stop ∧ (ofText text).start? 2 = some next ∧
        (terminators text)[0]? = some ⟨stop, next⟩) ∧
      (ofText text).start? 2 = some 4 ∧ (∃ stop, (ofText text).stop? 2 = some stop ∧ 4 ≤ stop ∧
        (HoldsBreak text stop ∨ stop = text.utf8ByteSize)) ∧
      entry ∈ (tokensOf text).zip (Token.spans 0 (tokensOf text)) ∧ 4 ∈ (ofText text).starts ∧
      String.Pos.Raw.IsValid text ⟨4⟩ := by
  intro text entry
  obtain ⟨-, -, -, hstops, hnext, hvalid, hbreaks⟩ := lines_tile text
  have hcount : 1 < (ofText text).count := by decide
  have hstart : (ofText text).start? 2 = some 4 := by decide
  have hentry : entry ∈ (tokensOf text).zip (Token.spans 0 (tokensOf text)) := by decide +kernel
  have hmem : 4 ∈ (ofText text).starts := hbreaks entry hentry rfl
  obtain ⟨stop, next, hstop, hbegins, hmark, -⟩ := hnext 1 (by decide) hcount
  obtain ⟨last, hlast, hle, hholds, -⟩ := hstops 2 4 hstart
  exact ⟨hcount, ⟨stop, next, hstop, hbegins, hmark⟩, hstart, ⟨last, hlast, hle, hholds⟩, hentry, hmem, hvalid 4 hmem⟩

end Lines

end SwiftTidy

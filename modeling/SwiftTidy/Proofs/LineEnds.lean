import SwiftTidy.Proofs.Descent
import SwiftTidy.Proofs.Nesting
import SwiftTidy.Proofs.Rereading

/-!
# Line ends

The line of an offset is told by the line ends before it (`Lines.line_position`), and a directive for one line speaks
of the offsets with one line number (`Regions.onLine_iff`). Whether a carriage return ends a line depends on the
character behind it, so the line ends of a text are counted in view of what follows. In a tree they are counted
token by token (`Tree.lineAt`).
-/

namespace SwiftTidy

open Text

namespace Lines

/-- The number of lines that end in `cs` with `rest` behind it. -/
def lineEnds : List Char → List Char → Nat
  | [], _ => 0
  | c :: cs, rest => (if endsLine c (cs ++ rest) then 1 else 0) + lineEnds cs rest

@[simp] lemma lineEnds_nil (rest : List Char) : lineEnds [] rest = 0 := rfl

lemma lineEnds_append (front back rest : List Char) :
    lineEnds (front ++ back) rest = lineEnds front (back ++ rest) + lineEnds back rest := by
  induction front with
  | nil => simp
  | cons c front ih =>
    rw [List.cons_append, lineEnds, lineEnds, ih, List.append_assoc]
    omega

variable {offset start line : Nat} {rest cs : List Char}

lemma isLineBreak_of_endsLine {c : Char} (h : endsLine c rest = true) : isLineBreak c = true := by
  simp only [endsLine, Bool.or_eq_true, Bool.and_eq_true] at h
  rcases h with h | ⟨h, -⟩ <;> simp [isLineBreak, h]

lemma lineEnds_eq_zero (h : ∀ c ∈ cs, isLineBreak c = false) (rest : List Char) : lineEnds cs rest = 0 := by
  induction cs with
  | nil => rfl
  | cons c cs ih =>
    have hc : endsLine c (cs ++ rest) = false := by
      cases hends : endsLine c (cs ++ rest) with
      | false => rfl
      | true => simpa [h c (by simp)] using isLineBreak_of_endsLine hends
    rw [lineEnds, hc, ih fun d hd => h d (by simp [hd])]
    rfl

lemma lineEnds_congr {rest' : List Char}
    (h : cs.getLast? = some '\r' → (rest.head? = some '\n' ↔ rest'.head? = some '\n')) :
    lineEnds cs rest = lineEnds cs rest' := by
  induction cs with
  | nil => rfl
  | cons c cs ih =>
    cases cs with
    | nil =>
      have hends : endsLine c rest = endsLine c rest' := by
        by_cases hc : c = '\r'
        · have := h (by simp [hc])
          rw [endsLine, endsLine, Bool.eq_iff_iff]
          simp [this]
        · rw [endsLine, endsLine, beq_eq_false_iff_ne.2 hc, Bool.false_and, Bool.false_and]
      simp [lineEnds, hends]
    | cons d cs =>
      have hrest := ih (by simpa using h)
      rw [lineEnds, hrest]
      rfl

/-- Where no line ends there is no line break, unless the last character is half of one. -/
lemma isLineBreak_of_lineEnds_eq_zero (h : lineEnds cs rest = 0)
    (hrest : cs.getLast? = some '\r' → rest.head? ≠ some '\n') : ∀ c ∈ cs, isLineBreak c = false := by
  induction cs with
  | nil => simp
  | cons c cs ih =>
    rw [lineEnds] at h
    have hrestEnds : lineEnds cs rest = 0 := by omega
    have hc : endsLine c (cs ++ rest) = false := by
      cases hends : endsLine c (cs ++ rest) with
      | false => rfl
      | true => simp [hends] at h
    have hcs : ∀ d ∈ cs, isLineBreak d = false := by
      cases cs with
      | nil => simp
      | cons d cs => exact ih hrestEnds (by simpa using hrest)
    have hfirst : isLineBreak c = false := by
      simp only [endsLine, Bool.or_eq_false_iff, Bool.and_eq_false_iff, bne_eq_false_iff_eq] at hc
      rw [isLineBreak, hc.1, Bool.false_or]
      rcases hc.2 with hcr | hfeed
      · exact hcr
      · by_contra hreturn
        obtain rfl : c = '\r' := by simpa using hreturn
        cases cs with
        | nil => exact hrest rfl (by simpa using hfeed)
        | cons d cs =>
          obtain rfl : d = '\n' := by simpa using hfeed
          simpa [isLineBreak] using hcs '\n' (by simp)
    simpa [hfirst] using hcs

/-! ## Where lines begin -/

lemma lt_of_mem_startsIn (h : start ∈ startsIn offset cs) : offset < start := by
  induction cs generalizing offset with
  | nil => simp [startsIn] at h
  | cons c cs ih =>
    have hpos := c.utf8Size_pos
    have hrest : start ∈ startsIn (offset + c.utf8Size) cs → offset < start := fun hmem => by
      have := ih hmem
      omega
    rw [startsIn] at h
    split at h
    · rcases List.mem_cons.1 h with rfl | h
      · omega
      · exact hrest h
    · exact hrest h

/-- Of the lines of a text, those that begin in the first part of it are as many as lines end there. -/
lemma exists_startsIn_append (offset : Nat) (front back : List Char) :
    ∃ begun, startsIn offset (front ++ back) = begun ++ startsIn (offset + byteLength front) back ∧
      begun.length = lineEnds front back ∧ ∀ start ∈ begun, start ≤ offset + byteLength front := by
  induction front generalizing offset with
  | nil => exact ⟨[], by simp, rfl, by simp⟩
  | cons c front ih =>
    obtain ⟨begun, hstarts, hlength, hle⟩ := ih (offset + c.utf8Size)
    have hsize : offset + c.utf8Size + byteLength front = offset + byteLength (c :: front) := by
      rw [byteLength_cons]
      omega
    rw [hsize] at hstarts hle
    rw [List.cons_append, startsIn, lineEnds]
    split
    next hends =>
      refine ⟨(offset + c.utf8Size) :: begun, by rw [hstarts, List.cons_append], by simp [hlength]; omega, ?_⟩
      intro start hstart
      rcases List.mem_cons.1 hstart with rfl | hstart
      · rw [byteLength_cons]
        omega
      · exact hle start hstart
    next => exact ⟨begun, hstarts, by simp [hlength], hle⟩

variable {lines : Lines} {front back : List Char}

/-- The line of an offset is told by the line ends before it. -/
lemma line_position (h : lines.chars = front ++ back) :
    (lines.position (byteLength front)).line = lineEnds front back + 1 := by
  obtain ⟨begun, hstarts, hlength, hle⟩ := exists_startsIn_append 0 front back
  have hmin : min (byteLength front) lines.size = byteLength front := by
    rw [size, h, byteLength_append]
    omega
  have hbegun : begun.filter (fun start => start ≤ byteLength front) = begun :=
    List.filter_eq_self.2 fun start hstart => by simpa using hle start hstart
  have hlater : (startsIn (0 + byteLength front) back).filter (fun start => start ≤ byteLength front) = [] := by
    refine List.filter_eq_nil_iff.2 fun start hstart => ?_
    have := lt_of_mem_startsIn hstart
    simp only [decide_eq_true_eq]
    omega
  rw [position, hmin, starts, h, hstarts]
  simp only [List.filter_cons, List.filter_append, hbegun, hlater, List.append_nil]
  simp [hlength]

/-- The beginning of a line cuts the text behind as many line ends as there are lines before it. -/
lemma exists_of_getElem?_startsIn (h : (startsIn offset cs)[line]? = some start) :
    ∃ front back, cs = front ++ back ∧ start = offset + byteLength front ∧ lineEnds front back = line + 1 := by
  induction cs generalizing offset line with
  | nil => simp [startsIn] at h
  | cons c cs ih =>
    have hstep : ∀ {front back : List Char}, cs = front ++ back → endsLine c (front ++ back) = endsLine c cs :=
      fun hcs => by rw [hcs]
    rw [startsIn] at h
    split at h
    next hends =>
      cases line with
      | zero =>
        obtain rfl : offset + c.utf8Size = start := by simpa using h
        exact ⟨[c], cs, rfl, by simp, by simp [lineEnds, hends]⟩
      | succ line =>
        obtain ⟨front, back, hcs, rfl, hline⟩ := ih (by simpa using h)
        refine ⟨c :: front, back, by simp [hcs], by rw [byteLength_cons]; omega, ?_⟩
        rw [lineEnds, hstep hcs, hends, hline, if_pos rfl]
        omega
    next hends =>
      obtain ⟨front, back, hcs, rfl, hline⟩ := ih h
      refine ⟨c :: front, back, by simp [hcs], by rw [byteLength_cons]; omega, ?_⟩
      rw [lineEnds, hstep hcs, hline, if_neg hends, Nat.zero_add]

lemma exists_of_start? (h : lines.start? line = some start) :
    ∃ front back, lines.chars = front ++ back ∧ start = byteLength front ∧ lineEnds front back + 1 = line := by
  rw [start?, Option.ite_none_left_eq_some] at h
  obtain ⟨hpos, h⟩ := h
  rw [starts] at h
  cases hline : line - 1 with
  | zero =>
    rw [hline] at h
    obtain rfl : 0 = start := by simpa using h
    exact ⟨[], lines.chars, rfl, rfl, by simp; omega⟩
  | succ n =>
    rw [hline, List.getElem?_cons_succ] at h
    obtain ⟨front, back, hchars, rfl, hends⟩ := exists_of_getElem?_startsIn h
    exact ⟨front, back, hchars, by simp, by omega⟩

lemma exists_start?_le (h : lines.chars = front ++ back) :
    ∃ start, lines.start? (lineEnds front back + 1) = some start ∧ start ≤ byteLength front := by
  obtain ⟨begun, hstarts, hlength, hle⟩ := exists_startsIn_append 0 front back
  have hlt : lineEnds front back < (0 :: begun).length := by simp [hlength]
  have hget : lines.starts[lineEnds front back]? = some (0 :: begun)[lineEnds front back] := by
    rw [starts, h, hstarts, ← List.cons_append, List.getElem?_append_left hlt, List.getElem?_eq_getElem hlt]
  refine ⟨_, by simpa [start?] using hget, ?_⟩
  rcases List.mem_cons.1 (List.getElem_mem hlt) with hzero | hmem
  · omega
  · simpa using hle _ hmem

lemma dropBytes_append (front back : List Char) : dropBytes (byteLength front) (front ++ back) = back := by
  induction front with
  | nil => simp [dropBytes]
  | cons c front ih =>
    have hpos := c.utf8Size_pos
    obtain ⟨n, hn⟩ : ∃ n, byteLength (c :: front) = n + 1 :=
      ⟨byteLength (c :: front) - 1, by rw [byteLength_cons]; omega⟩
    rw [hn, List.cons_append, dropBytes, ← hn, byteLength_cons, Nat.add_sub_cancel_left, ih]

lemma stop?_eq (h : lines.chars = front ++ back) (hstart : lines.start? line = some (byteLength front)) :
    lines.stop? line = some (byteLength front + byteLength (back.takeWhile fun c => !isLineBreak c)) := by
  rw [stop?, hstart, h, Option.map_some, dropBytes_append]

lemma eq_nil_of_byteLength_eq_zero (h : byteLength cs = 0) : cs = [] := by
  cases cs with
  | nil => rfl
  | cons c cs =>
    have hpos := c.utf8Size_pos
    rw [byteLength_cons] at h
    omega

lemma exists_append_of_le {front' back' : List Char} (h : front ++ back = front' ++ back')
    (hle : byteLength front ≤ byteLength front') : ∃ middle, front' = front ++ middle ∧ back = middle ++ back' := by
  rcases List.append_eq_append_iff.1 h with ⟨middle, hfront, hback⟩ | ⟨middle, hfront, hback⟩
  · exact ⟨middle, hfront, hback⟩
  · rw [hfront, byteLength_append] at hle
    have hnone : byteLength middle = 0 := by omega
    obtain rfl := eq_nil_of_byteLength_eq_zero hnone
    exact ⟨[], by simpa using hfront.symm, by simpa using hback.symm⟩

lemma byteLength_le_takeWhile_iff {middle : List Char} :
    byteLength middle ≤ byteLength ((middle ++ rest).takeWhile fun c => !isLineBreak c) ↔
      ∀ c ∈ middle, isLineBreak c = false := by
  induction middle with
  | nil => simp
  | cons c middle ih =>
    have hpos := c.utf8Size_pos
    rw [List.cons_append, List.takeWhile_cons, byteLength_cons]
    cases hc : isLineBreak c with
    | true => simp [hc]; omega
    | false => simpa [hc, byteLength_cons] using ih

end Lines

/-! ## Directives for one line -/

lemma LineScope.names_succ {scope : LineScope} {here line : Nat} :
    scope.Names (here + 1) (line + 1) ↔ scope.Names here line := by
  cases scope <;> simp [LineScope.Names]

namespace Regions

open Lines

/-- A directive for one line speaks of the offsets on this line, if they are not within a line end. -/
lemma onLine_iff {lines : Lines} {front back : List Char} (h : lines.chars = front ++ back)
    (hcut : front.getLast? = some '\r' → back.head? ≠ some '\n') (scope : LineScope) (comment : Nat) :
    OnLine lines scope comment (byteLength front) ↔
      scope.Names (lines.position comment).line (lineEnds front back + 1) := by
  constructor
  · rintro ⟨line, start, stop, hnames, hstart, hstop, hle, hreach⟩
    obtain ⟨before, behind, hchars, rfl, rfl⟩ := exists_of_start? hstart
    obtain ⟨middle, rfl, rfl⟩ := exists_append_of_le (hchars.symm.trans h) hle
    rw [stop?_eq hchars hstart, Option.some.injEq] at hstop
    rw [← hstop, byteLength_append, Nat.add_le_add_iff_left, byteLength_le_takeWhile_iff] at hreach
    rwa [lineEnds_append, lineEnds_eq_zero hreach]
  · intro hnames
    obtain ⟨start, hstart, hle⟩ := exists_start?_le h
    obtain ⟨before, behind, hchars, rfl, hends⟩ := exists_of_start? hstart
    obtain ⟨middle, rfl, rfl⟩ := exists_append_of_le (hchars.symm.trans h) hle
    refine ⟨_, _, _, hnames, hstart, stop?_eq hchars hstart, hle, ?_⟩
    rw [byteLength_append, Nat.add_le_add_iff_left, byteLength_le_takeWhile_iff]
    rw [lineEnds_append] at hends
    have hnone : lineEnds middle back = 0 := by omega
    refine isLineBreak_of_lineEnds_eq_zero hnone fun hlast => hcut ?_
    rw [List.getLast?_append, hlast]
    rfl

end Regions

/-! ## Lines of a tree -/

/-- Whether there is a line break in a token. -/
def Token.holdsBreak (token : Token) : Bool := token.text.toList.any isLineBreak

lemma Token.holdsBreak_eq_false_iff {token : Token} :
    token.holdsBreak = false ↔ ∀ c ∈ token.text.toList, isLineBreak c = false := by
  simp [holdsBreak]

/-- The characters of a row of tokens. -/
def Placed.chars (row : List Placed) : List Char := Token.chars (row.map Placed.token)

namespace Placed

@[simp] lemma chars_nil : chars [] = [] := by simp [chars]

@[simp] lemma chars_cons (placed : Placed) (row : List Placed) :
    chars (placed :: row) = placed.token.text.toList ++ chars row := by
  simp [chars]

@[simp] lemma chars_append (front back : List Placed) : chars (front ++ back) = chars front ++ chars back := by
  induction front with
  | nil => simp
  | cons placed front ih => simp [ih]

@[simp] lemma chars_under (p : Path) (row : List Placed) : chars (row.map (Placed.under p)) = chars row := by
  simp [chars, Function.comp_def]

lemma isLineBreak_of_mem_chars {row : List Placed} (h : ∀ placed ∈ row, placed.token.holdsBreak = false) :
    ∀ c ∈ chars row, isLineBreak c = false := by
  induction row with
  | nil => simp
  | cons placed row ih =>
    rw [chars_cons]
    intro c hc
    rcases List.mem_append.1 hc with hc | hc
    · exact Token.holdsBreak_eq_false_iff.1 (h placed (by simp)) c hc
    · exact ih (fun other hother => h other (by simp [hother])) c hc

end Placed

namespace Tree

open Placed Lines

lemma chars_placedTokens (tree : Tree) : chars tree.placedTokens = tree.text.toList := by
  rw [Placed.chars, map_token_placedTokens, Token.chars, text]

lemma byteLength_chars_placedFrom (i : Nat) (trees : List Tree) :
    byteLength (chars (placedFrom i trees)) = widthOf trees := by
  rw [Placed.chars, map_token_placedFrom, Token.chars, byteLength_toList, widthOf_eq_utf8ByteSize]

lemma placedFrom_append (i : Nat) (front back : List Tree) :
    placedFrom i (front ++ back) = placedFrom i front ++ placedFrom (i + front.length) back := by
  rw [← filterMap_placed?_slotsFrom, slotsFrom_append, List.filterMap_append, filterMap_placed?_slotsFrom,
    filterMap_placed?_slotsFrom]

variable {p q : Path} {row front back : List Placed} {tree part : Tree}

/-- The tokens of a tree are those before a part, those of the part, and those after it. A part begins after the bytes
of the tokens before it. -/
lemma exists_tokens_split (h : tree.sub? p = some part) :
    ∃ front back, tree.placedTokens = front ++ part.placedTokens.map (Placed.under p) ++ back ∧
      (∀ placed ∈ front, Path.Precedes placed.path p) ∧ (∀ placed ∈ back, Path.Precedes p placed.path) ∧
      tree.startAt p = byteLength (chars front) := by
  induction p, tree, h using sub?_induction with
  | here =>
    have hself : Placed.under [] = id := by
      funext placed
      simp [Placed.under]
    exact ⟨[], [], by simp [hself], by simp, by simp, by simp [startAt]⟩
  | inside kind before child after p h ih =>
    obtain ⟨front, back, htokens, hfront, hback, hstart⟩ := ih
    refine ⟨placedFrom 0 before ++ front.map (Placed.under [before.length]),
      back.map (Placed.under [before.length]) ++ placedFrom (before.length + 1) after, ?_, ?_, ?_, ?_⟩
    · rw [placedTokens_node, placedFrom_append, placedFrom, htokens, Nat.zero_add]
      simp [Function.comp_def, Placed.under]
    · intro placed hplaced
      rcases List.mem_append.1 hplaced with hplaced | hplaced
      · obtain ⟨j, other, q, hj, hpath, -⟩ := sub?_of_mem_placedFrom hplaced
        obtain ⟨hlt, -⟩ := List.getElem?_eq_some_iff.1 hj
        rw [hpath]
        exact Or.inl (by omega)
      · obtain ⟨inner, hinner, rfl⟩ := List.mem_map.1 hplaced
        simpa using hfront inner hinner
    · intro placed hplaced
      rcases List.mem_append.1 hplaced with hplaced | hplaced
      · obtain ⟨inner, hinner, rfl⟩ := List.mem_map.1 hplaced
        simpa using hback inner hinner
      · obtain ⟨j, other, q, -, hpath, -⟩ := sub?_of_mem_placedFrom hplaced
        rw [hpath]
        exact Or.inl (by omega)
    · rw [startAt_append_cons, hstart, chars_append, byteLength_append, byteLength_chars_placedFrom, chars_under]

/-- The number of lines that end in the tokens of a row before a place. -/
def lineEndsBefore (p : Path) : List Placed → Nat
  | [] => 0
  | placed :: row =>
    (if Path.Precedes placed.path p then lineEnds placed.token.text.toList (chars row) else 0) + lineEndsBefore p row

/-- The number of lines before the one in which a part begins. -/
def lineAt (tree : Tree) (p : Path) : Nat := lineEndsBefore p tree.placedTokens

lemma lineEndsBefore_of_holdsBreak (h : ∀ placed ∈ row, Path.Precedes placed.path p → placed.token.holdsBreak = false)
    (back : List Placed) : lineEndsBefore p (row ++ back) = lineEndsBefore p back := by
  induction row with
  | nil => rfl
  | cons placed row ih =>
    rw [List.cons_append, lineEndsBefore, ih fun other hother => h other (by simp [hother])]
    split
    next hbefore =>
      rw [lineEnds_eq_zero (Token.holdsBreak_eq_false_iff.1 (h placed (by simp) hbefore)), Nat.zero_add]
    next => rw [Nat.zero_add]

lemma lineEndsBefore_append (hfront : ∀ placed ∈ front, Path.Precedes placed.path p)
    (hback : ∀ placed ∈ back, Path.Precedes placed.path p → placed.token.holdsBreak = false) :
    lineEndsBefore p (front ++ back) = lineEnds (chars front) (chars back) := by
  induction front with
  | nil => simpa [lineEndsBefore] using lineEndsBefore_of_holdsBreak hback []
  | cons placed front ih =>
    rw [List.cons_append, lineEndsBefore, if_pos (hfront placed (by simp)),
      ih fun other hother => hfront other (by simp [hother]), chars_cons, lineEnds_append, chars_append]

/-- A row without line breaks may take the place of another one. -/
lemma lineEndsBefore_replace {old new : List Placed} (hold : ∀ placed ∈ old, placed.token.holdsBreak = false)
    (holdChars : chars old ≠ []) (hnew : ∀ placed ∈ new, placed.token.holdsBreak = false) (hnewChars : chars new ≠ [])
    (h : ∀ placed ∈ front ++ back, Path.Precedes placed.path p ↔ Path.Precedes placed.path q) :
    lineEndsBefore p (front ++ (old ++ back)) = lineEndsBefore q (front ++ (new ++ back)) := by
  induction front with
  | nil =>
    rw [List.nil_append, List.nil_append, lineEndsBefore_of_holdsBreak (fun placed hplaced _ => hold placed hplaced),
      lineEndsBefore_of_holdsBreak (fun placed hplaced _ => hnew placed hplaced)]
    clear hold hnew
    induction back with
    | nil => rfl
    | cons placed back ih =>
      simp only [lineEndsBefore, h placed (by simp), ih fun other hother => h other (by simp_all)]
  | cons placed front ih =>
    rw [List.cons_append, List.cons_append, lineEndsBefore, lineEndsBefore,
      ih fun other hother => h other (by simp_all)]
    have hhead : ∀ {row : List Placed}, (∀ placed ∈ row, placed.token.holdsBreak = false) → chars row ≠ [] →
        (chars row ++ chars back).head? ≠ some '\n' := by
      intro row hrow hne hfeed
      obtain ⟨c, cs, hcs⟩ := List.exists_cons_of_ne_nil hne
      obtain rfl : c = '\n' := by simpa [hcs] using hfeed
      simpa [isLineBreak] using isLineBreak_of_mem_chars hrow '\n' (by simp [hcs])
    have hends : lineEnds placed.token.text.toList (chars (front ++ (old ++ back))) =
        lineEnds placed.token.text.toList (chars (front ++ (new ++ back))) := by
      refine lineEnds_congr fun _ => ?_
      rw [chars_append, chars_append, chars_append, chars_append]
      cases chars front with
      | nil => exact iff_of_false (hhead hold holdChars) (hhead hnew hnewChars)
      | cons c cs => exact Iff.rfl
    simp only [hends, h placed (by simp)]

/-- Tokens may be taken out if there are line breaks neither in them nor right before them. -/
lemma lineEndsBefore_relocate {moved : Path → Option Path} (hsound : ∀ placed ∈ row, placed.token.text.toList ≠ [])
    (hgone : ∀ placed ∈ row, moved placed.path = none → placed.token.holdsBreak = false)
    (hnext : ∀ front placed next back, row = front ++ placed :: next :: back → moved next.path = none →
      moved placed.path ≠ none → placed.token.holdsBreak = false)
    (h : ∀ placed ∈ row, ∀ {r}, moved placed.path = some r → (Path.Precedes r q ↔ Path.Precedes placed.path p)) :
    lineEndsBefore q (row.filterMap (Placed.relocate moved)) = lineEndsBefore p row := by
  induction row with
  | nil => rfl
  | cons placed row ih =>
    have ih := ih (fun other hother => hsound other (by simp [hother]))
      (fun other hother => hgone other (by simp [hother]))
      (fun front _ _ _ hrow => hnext (placed :: front) _ _ _ (by rw [hrow, List.cons_append]))
      (fun other hother => h other (by simp [hother]))
    rw [lineEndsBefore]
    cases hmoved : moved placed.path with
    | none =>
      have hends : lineEnds placed.token.text.toList (chars row) = 0 :=
        lineEnds_eq_zero (Token.holdsBreak_eq_false_iff.1 (hgone placed (by simp) hmoved)) _
      rw [List.filterMap_cons_none (by simp [relocate, hmoved]), ih, hends, ite_self, Nat.zero_add]
    | some r =>
      rw [List.filterMap_cons_some (by simp [relocate, hmoved]; rfl), lineEndsBefore, ih, Placed.path_mk,
        if_congr (h placed (by simp) hmoved) rfl rfl]
      have hends : lineEnds placed.token.text.toList (chars (row.filterMap (Placed.relocate moved))) =
          lineEnds placed.token.text.toList (chars row) := by
        cases row with
        | nil => rfl
        | cons next row =>
          cases hnextMoved : moved next.path with
          | none =>
            have hbreak := Token.holdsBreak_eq_false_iff.1
              (hnext [] placed next row rfl hnextMoved (by simp [hmoved]))
            rw [lineEnds_eq_zero hbreak, lineEnds_eq_zero hbreak]
          | some s =>
            obtain ⟨c, cs, hcs⟩ := List.exists_cons_of_ne_nil (hsound next (by simp))
            refine lineEnds_congr fun _ => ?_
            rw [List.filterMap_cons_some (by simp [relocate, hnextMoved]; rfl), chars_cons, chars_cons, hcs]
            rfl
      simp only [hends]

/-- The line of a part. -/
lemma line_startAt (h : tree.sub? p = some part) :
    ((Source.ofTree tree).lines.position (tree.startAt p)).line = tree.lineAt p + 1 := by
  obtain ⟨front, back, htokens, hfront, hback, hstart⟩ := exists_tokens_split h
  rw [List.append_assoc] at htokens
  have hchars : (Source.ofTree tree).lines.chars =
      chars front ++ chars (part.placedTokens.map (Placed.under p) ++ back) := by
    rw [← chars_append, ← htokens, chars_placedTokens]
    rfl
  rw [hstart, line_position hchars, lineAt, htokens, lineEndsBefore_append hfront]
  intro placed hplaced hbefore
  exfalso
  rcases List.mem_append.1 hplaced with hplaced | hplaced
  · obtain ⟨inner, -, rfl⟩ := List.mem_map.1 hplaced
    exact hbefore.apart.2 (by simp)
  · exact hbefore.asymm (hback placed hplaced)

end Tree

namespace Lexer

lemma kind_scan_of_isLineBreak {c : Char} (cs : List Char) (h : isLineBreak c = true) :
    (scan c cs).kind = .newline := by
  simp only [isLineBreak, Bool.or_eq_true, beq_iff_eq] at h
  rcases h with rfl | rfl
  · rfl
  · cases cs with
    | nil => rfl
    | cons d cs =>
      by_cases hd : d = '\n'
      · subst hd
        rfl
      · rw [scan]
        · rfl
        · simpa using hd

/-- There is no line break in a space. -/
lemma holdsBreak_of_mem_tokens {cs : List Char} {token : Token} (h : token ∈ tokens cs)
    (hkind : token.kind = .whitespace) : token.holdsBreak = false := by
  obtain ⟨c, cs, rfl⟩ := exists_of_mem_tokens h
  have hbreak : isLineBreak c = false := by
    cases hc : isLineBreak c with
    | false => rfl
    | true => simp [kind_scan_of_isLineBreak cs hc] at hkind
  have hspace : isSpace c = true := by
    cases hc : Text.isBlank c with
    | false => exact absurd hkind (scan_of_not_isBlank cs hc).1
    | true => simp [isSpace, hc, hbreak]
  have htake : ∀ d ∈ cs.take (scan c cs).more, isSpace d = true := by
    intro d hd
    rw [scan_of_isSpace cs hspace, plain, runLength,
      ← List.prefix_iff_eq_take.1 (List.takeWhile_prefix isSpace)] at hd
    exact List.mem_takeWhile_imp hd
  rw [Token.holdsBreak_eq_false_iff, String.toList_ofList]
  intro d hd
  rcases List.mem_cons.1 hd with rfl | hd
  · exact hbreak
  · have hspace := htake d hd
    simp only [isSpace, Bool.and_eq_true, Bool.not_eq_true'] at hspace
    exact hspace.2

end Lexer

end SwiftTidy

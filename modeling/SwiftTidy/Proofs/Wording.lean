import SwiftTidy.Suppression.Directive
import Mathlib.Data.List.Infix
import Mathlib.Data.List.TakeWhile

/-!
# How directives are written

A directive is written as a comment of either form: the action, the rules with spaces between them, and perhaps an
explanation. Reading the comment gives the directive back, whatever the explanation says
(`Directive.ofComment_written`).

What is read is cut three times. The comment ends where only a comment end and blanks are left, the explanation begins
at the first hyphen between spaces, and the rules are parted by blanks and commas. Words that stand for rules are such
that none of these cuts goes through them.
-/

namespace SwiftTidy

open Text

/-- The forms of a comment. -/
inductive CommentForm where
  /-- From two slashes on to the end of the line. -/
  | line
  /-- From a slash and a star on to a star and a slash. -/
  | block
  deriving DecidableEq, Repr

/-- What a comment begins with. -/
def CommentForm.opening : CommentForm → String
  | .line => "// "
  | .block => "/* "

/-- What a comment ends with. -/
def CommentForm.closing : CommentForm → String
  | .line => ""
  | .block => " */"

/-- An action as it is written. -/
def Action.written : Action → String
  | .disable => "disable"
  | .disableLine scope => "disable:" ++ scope.name
  | .enable => "enable"

/-- What an action is written with behind a colon. -/
def Action.modifier? : Action → Option String
  | .disableLine scope => some scope.name
  | _ => none

namespace Directive

/-- A comment that gives a directive, perhaps with an explanation. -/
def written (directive : Directive) (form : CommentForm) (explanation? : Option String) : String :=
  form.opening ++ "kestrel:" ++ directive.action.written ++ " " ++ " ".intercalate directive.rules ++
    explanation?.elim "" (" - " ++ ·) ++ form.closing

/-- A word that may stand for a rule. -/
structure IsRuleWord (word : String) : Prop where
  ne_empty : word ≠ ""
  solid : ∀ c ∈ word.toList, isBlank c = false ∧ c ≠ ','
  ne_hyphen : word ≠ "-"
  not_end : ¬ ['*', '/'] <:+ word.toList

/-- A text that may explain a directive: one line that is not blank. -/
def IsExplanation (text : String) : Prop :=
  '\n' ∉ text.toList ∧ ∃ c ∈ text.toList, isBlank c = false

instance (word : String) : Decidable (IsRuleWord word) :=
  decidable_of_iff (word ≠ "" ∧ (word.toList.all fun c => !isBlank c && c != ',') = true ∧ word ≠ "-" ∧
      ¬ ['*', '/'] <:+ word.toList) (by
    simp only [List.all_eq_true, Bool.and_eq_true, Bool.not_eq_true', bne_iff_ne]
    exact ⟨fun ⟨hempty, hsolid, hhyphen, hend⟩ => ⟨hempty, hsolid, hhyphen, hend⟩,
      fun h => ⟨h.ne_empty, h.solid, h.ne_hyphen, h.not_end⟩⟩)

instance (text : String) : Decidable (IsExplanation text) :=
  decidable_of_iff ('\n' ∉ text.toList ∧ (text.toList.any fun c => !isBlank c) = true) (by
    simp only [List.any_eq_true, Bool.not_eq_true', IsExplanation])

/-! ## The end of a comment -/

variable {c : Char} {cs rest : List Char}

lemma cases_of_atEnd (h : atEnd cs = true) :
    (∀ c ∈ cs, isBlank c = true) ∨
      ∃ stars blanks, cs = '*' :: stars ++ '/' :: blanks ∧ (∀ c ∈ stars, c = '*') ∧ ∀ c ∈ blanks, isBlank c = true := by
  rw [atEnd.eq_def, Bool.or_eq_true] at h
  rcases h with h | h
  · exact Or.inl (by simpa using h)
  · right
    split at h
    next rest blanks hdrop =>
      have hstars : rest.dropWhile (· == '*') = '/' :: blanks := by simpa using hdrop
      refine ⟨rest.takeWhile (· == '*'), blanks, ?_, fun c hc => by simpa using List.mem_takeWhile_imp hc,
        by simpa using h⟩
      rw [← hstars, List.cons_append, List.takeWhile_append_dropWhile]
    next => simp at h

lemma stars_of_atEnd (h : atEnd (cs ++ [c]) = true) (hc : isBlank c = false) :
    c = '/' ∧ cs ≠ [] ∧ ∀ d ∈ cs, d = '*' := by
  rcases cases_of_atEnd h with hblanks | ⟨stars, blanks, heq, hstars, hblanks⟩
  · simp [hblanks c (by simp)] at hc
  · obtain rfl | ⟨blanks, b, rfl⟩ := List.eq_nil_or_concat blanks
    · obtain ⟨rfl, hlast⟩ := List.append_inj' heq rfl
      exact ⟨by simpa using hlast, by simp, by simpa using hstars⟩
    · rw [List.concat_eq_append, ← List.cons_append, ← List.append_assoc] at heq
      obtain rfl : c = b := by simpa using (List.append_inj' heq rfl).2
      simp [hblanks c (by simp)] at hc

lemma atEnd_eq_false_of_mem (hc : c ∈ cs) (hblank : isBlank c = false) (hstar : c ≠ '*') (hslash : c ≠ '/') :
    atEnd cs = false := by
  rw [Bool.eq_false_iff]
  intro h
  rcases cases_of_atEnd h with hblanks | ⟨stars, blanks, rfl, hstars, hblanks⟩
  · simp [hblanks c hc] at hblank
  · simp only [List.mem_append, List.mem_cons] at hc
    rcases hc with (hc | hc) | hc | hc
    · exact hstar hc
    · exact hstar (hstars c hc)
    · exact hslash hc
    · simp [hblanks c hc] at hblank

lemma atEnd_cons_eq_false {b : Char} (hb : isBlank b = true) (hc : c ∈ cs) (hblank : isBlank c = false) :
    atEnd (b :: cs) = false := by
  rw [Bool.eq_false_iff]
  intro h
  rcases cases_of_atEnd h with hblanks | ⟨stars, blanks, heq, -⟩
  · simp [hblanks c (by simp [hc])] at hblank
  · obtain ⟨rfl, -⟩ := List.cons.inj heq
    exact absurd hb (by decide)

/-- A body goes on as long as the comment does not end. -/
lemma body?_append {front back : List Char} (hline : '\n' ∉ front)
    (hends : ∀ rest, rest ≠ [] → rest <:+ front → atEnd (rest ++ back) = false) :
    body? (front ++ back) = (body? back).map (front ++ ·) := by
  induction front with
  | nil => simp
  | cons c front ih =>
    have hrest := ih (fun hmem => hline (by simp [hmem])) fun rest hne hsuffix =>
      hends rest hne (hsuffix.trans (List.suffix_cons c front))
    have hhere : atEnd (c :: (front ++ back)) = false := hends (c :: front) (by simp) (List.suffix_refl _)
    have hc : (c == '\n') = false := beq_false_of_ne (List.ne_of_not_mem_cons hline).symm
    rw [List.cons_append, body?, hhere, hc, hrest]
    simp [Function.comp_def]

lemma exists_body? (hline : '\n' ∉ cs) : ∃ body, body? cs = some body := by
  induction cs with
  | nil => exact ⟨[], rfl⟩
  | cons c cs ih =>
    obtain ⟨body, hbody⟩ := ih fun hmem => hline (by simp [hmem])
    have hc : (c == '\n') = false := beq_false_of_ne (List.ne_of_not_mem_cons hline).symm
    rw [body?, hc, hbody]
    by_cases hend : atEnd (c :: cs) = true <;> simp [hend]

/-! ## Words -/

/-- Words with a space before each of them. -/
def spread (words : List String) : List Char := words.flatMap fun word => ' ' :: word.toList

lemma spread_cons (word : String) (words : List String) : spread (word :: words) = ' ' :: (word.toList ++ spread words) :=
  List.flatMap_cons

lemma cons_toList_intercalate {words : List String} (hne : words ≠ []) :
    ' ' :: (" ".intercalate words).toList = spread words := by
  induction words with
  | nil => exact absurd rfl hne
  | cons word words ih =>
    cases words with
    | nil => simp [spread]
    | cons next words =>
      rw [spread_cons, ← ih (by simp), String.intercalate_cons_cons]
      simp

namespace IsRuleWord

variable {word : String} (h : IsRuleWord word)

include h

lemma toList_ne_nil : word.toList ≠ [] := by simpa using h.ne_empty

lemma exists_concat : ∃ front c, word.toList = front ++ [c] ∧ isBlank c = false := by
  obtain hnil | ⟨front, c, hfront⟩ := List.eq_nil_or_concat word.toList
  · exact absurd hnil h.toList_ne_nil
  · rw [List.concat_eq_append] at hfront
    exact ⟨front, c, hfront, (h.solid c (by simp [hfront])).1⟩

lemma after?_eq_none (rest : List Char) : after? [' ', '-', ' '] (' ' :: (word.toList ++ rest)) = none := by
  cases hword : word.toList with
  | nil => exact absurd hword h.toList_ne_nil
  | cons c cs =>
    cases cs with
    | nil =>
      have hc : c ≠ '-' := by
        rintro rfl
        exact h.ne_hyphen (String.toList_injective hword)
      simp [after?, hc.symm]
    | cons d cs =>
      have hd : d ≠ ' ' := by
        rintro rfl
        exact absurd (h.solid ' ' (by simp [hword])).1 (by decide)
      by_cases hc : '-' = c <;> simp [after?, hc, hd.symm]

end IsRuleWord

variable {words : List String}

lemma beforeExplanation_cons (hc : c ≠ ' ') (rest : List Char) :
    beforeExplanation (c :: rest) = c :: beforeExplanation rest := by
  rw [beforeExplanation]
  simp [after?, hc.symm]

lemma beforeExplanation_append (h : ∀ c ∈ cs, c ≠ ' ') (rest : List Char) :
    beforeExplanation (cs ++ rest) = cs ++ beforeExplanation rest := by
  induction cs with
  | nil => rfl
  | cons c cs ih =>
    rw [List.cons_append, beforeExplanation_cons (h c (by simp)), ih fun d hd => h d (by simp [hd]), List.cons_append]

lemma beforeExplanation_spread (h : ∀ word ∈ words, IsRuleWord word) (rest : List Char) :
    beforeExplanation (spread words ++ rest) = spread words ++ beforeExplanation rest := by
  induction words with
  | nil => rfl
  | cons word words ih =>
    have hword := h word (by simp)
    have hsolid : ∀ c ∈ word.toList, c ≠ ' ' := by
      rintro c hc rfl
      exact absurd (hword.solid ' ' hc).1 (by decide)
    rw [spread_cons, List.cons_append, List.append_assoc, beforeExplanation, hword.after?_eq_none]
    simp [beforeExplanation_append hsolid, ih fun other hother => h other (by simp [hother])]

lemma splitWith_append {isSeparator : Char → Bool} (h : ∀ c ∈ cs, isSeparator c = false) (word rest : List Char) :
    splitWith isSeparator word (cs ++ rest) = splitWith isSeparator (cs.reverse ++ word) rest := by
  induction cs generalizing word with
  | nil => rfl
  | cons c cs ih =>
    rw [List.cons_append, splitWith, h c (by simp)]
    simp [ih fun d hd => h d (by simp [hd])]

/-- A blank or a comma. -/
abbrev parts (c : Char) : Bool := isBlank c || c == ','

lemma words_eq (cs : List Char) :
    Directive.words cs = ((splitWith parts [] cs).filter fun word => !word.isEmpty).map String.ofList := rfl

/-- Words with a space before each of them are found again. -/
lemma words_spread (h : ∀ word ∈ words, IsRuleWord word) (hrest : rest = [] ∨ rest = [' ']) :
    Directive.words (spread words ++ rest) = words := by
  suffices hsplit : ∀ front : List Char,
      ((splitWith parts front (spread words ++ rest)).filter fun word => !word.isEmpty).map String.ofList =
        ([front.reverse].filter fun word => !word.isEmpty).map String.ofList ++ words by
    simpa [words_eq] using hsplit []
  induction words with
  | nil =>
    intro front
    rcases hrest with rfl | rfl
    · simp [spread, splitWith]
    · by_cases hfront : front = [] <;> simp [spread, splitWith, hfront, parts, show isBlank ' ' = true by decide]
  | cons word words ih =>
    intro front
    have hword := h word (by simp)
    have hsolid : ∀ c ∈ word.toList, parts c = false := by
      intro c hc
      simpa [parts] using hword.solid c hc
    have hne : word.toList.isEmpty = false := by simpa using hword.ne_empty
    have hih := ih (fun other hother => h other (by simp [hother])) word.toList.reverse
    rw [spread_cons, List.cons_append, List.append_assoc, splitWith, if_pos (by decide), splitWith_append hsolid,
      List.append_nil, List.filter_cons]
    by_cases hfront : front = [] <;> simp_all

/-! ## Bodies -/

section

variable (h : ∀ word ∈ words, IsRuleWord word)

include h

lemma newline_notMem_spread : '\n' ∉ spread words := by
  simp only [spread, List.mem_flatMap, List.mem_cons, not_exists, not_and, not_or]
  refine fun word hword => ⟨by decide, fun hmem => ?_⟩
  exact absurd ((h word hword).solid _ hmem).1 (by decide)

/-- No comment ends within words. -/
lemma atEnd_spread (hne : rest ≠ []) (hrest : rest <:+ spread words) : atEnd rest = false := by
  obtain rfl | ⟨front, last, rfl⟩ := List.eq_nil_or_concat words
  · exact absurd (List.suffix_nil.1 hrest) hne
  rw [List.concat_eq_append] at h hrest
  have hlast := h last (by simp)
  obtain ⟨start, c, hword, hsolid⟩ := hlast.exists_concat
  have hspread : spread (front ++ [last]) = (spread front ++ ' ' :: start) ++ [c] := by
    simp [spread, hword]
  rw [hspread, List.suffix_concat_iff, or_iff_right hne] at hrest
  obtain ⟨rest, rfl, hrest⟩ := hrest
  rw [Bool.eq_false_iff]
  intro hend
  obtain ⟨rfl, hne, hstars⟩ := stars_of_atEnd hend hsolid
  -- the slash has a star before it, and the word ends in both
  obtain rfl | ⟨start, d, rfl⟩ := List.eq_nil_or_concat start
  · rw [List.suffix_concat_iff, or_iff_right hne] at hrest
    obtain ⟨rest, rfl, -⟩ := hrest
    exact absurd (hstars ' ' (by simp)) (by decide)
  · rw [List.concat_eq_append, ← List.cons_append, ← List.append_assoc, List.suffix_concat_iff,
      or_iff_right hne] at hrest
    obtain ⟨rest, rfl, -⟩ := hrest
    obtain rfl := hstars d (by simp)
    exact hlast.not_end ⟨start, by simp [hword]⟩

lemma body?_spread : body? (spread words) = some (spread words) := by
  have hends : ∀ rest, rest ≠ [] → rest <:+ spread words → atEnd (rest ++ []) = false := by
    intro rest hne hrest
    rw [List.append_nil]
    exact atEnd_spread h hne hrest
  simpa [body?] using body?_append (newline_notMem_spread h) hends

/-- Words with an explanation behind them, up to the end of a line. -/
lemma body?_spread_explanation {explanation : String} (hexplanation : IsExplanation explanation) :
    ∃ rest, body? (spread words ++ " - ".toList ++ explanation.toList) = some (spread words ++ " - ".toList ++ rest) := by
  obtain ⟨hline, c, hc, hblank⟩ := hexplanation
  obtain ⟨rest, hrest⟩ := exists_body? hline
  refine ⟨rest, ?_⟩
  rw [body?_append, hrest, Option.map_some]
  · simpa using newline_notMem_spread h
  · intro suffix hne hsuffix
    have hshape : spread words ++ " - ".toList = (spread words ++ [' ', '-']) ++ [' '] := by simp
    rw [hshape, List.suffix_concat_iff, or_iff_right hne] at hsuffix
    obtain ⟨suffix, rfl, hsuffix⟩ := hsuffix
    obtain rfl | ⟨suffix, d, rfl⟩ := List.eq_nil_or_concat suffix
    · exact atEnd_cons_eq_false (by decide) hc hblank
    · have hd : d = '-' := by
        rw [List.concat_eq_append, show spread words ++ [' ', '-'] = (spread words ++ [' ']) ++ ['-'] by simp,
          List.suffix_concat_iff] at hsuffix
        obtain hnil | ⟨_, heq, -⟩ := hsuffix
        · simp at hnil
        · simpa using (List.append_inj' heq rfl).2
      exact atEnd_eq_false_of_mem (c := '-') (by simp [hd]) (by decide) (by decide) (by decide)

end

lemma body?_block {content : List Char} (hline : '\n' ∉ content) :
    body? (content ++ [' '] ++ ['*', '/']) = some (content ++ [' ']) := by
  rw [body?_append, show body? ['*', '/'] = some [] from rfl, Option.map_some, List.append_nil]
  · simpa using hline
  · intro rest hne hrest
    rw [List.suffix_concat_iff, or_iff_right hne] at hrest
    obtain ⟨rest, rfl, -⟩ := hrest
    rw [Bool.eq_false_iff]
    intro hend
    have hshape : rest ++ [' '] ++ ['*', '/'] = (rest ++ [' ', '*']) ++ ['/'] := by simp
    rw [hshape] at hend
    exact absurd ((stars_of_atEnd hend (by decide)).2.2 ' ' (by simp)) (by decide)

/-! ## Reading what was written -/

lemma after?_append (start rest : List Char) : after? start (start ++ rest) = some rest := by
  induction start with
  | nil => rfl
  | cons c start ih => simp [after?, ih]

/-- The action and its modifier are read up to the first space. -/
lemma draft?_written (form : CommentForm) (action : Action) (rest : List Char) :
    draft? (form.opening.toList ++ ("kestrel:".toList ++ (action.written.toList ++ ' ' :: rest))) =
      (body? (' ' :: rest)).map (Draft.mk (decide (action = .enable)) action.modifier?) := by
  have hinside : ∀ text, inside? (form.opening.toList ++ ("kestrel:".toList ++ text)) =
      some (' ' :: ("kestrel:".toList ++ text)) := by
    cases form <;> simp [inside?, CommentForm.opening]
  have hblank : ∀ text, (' ' :: ("kestrel:".toList ++ text)).dropWhile isBlank = "kestrel:".toList ++ text := by
    simp [show isBlank ' ' = true by decide, show isBlank 'k' = false by decide]
  have hmap : ∀ enables modifier?, (body? (' ' :: rest)).map (Draft.mk enables modifier?) =
      (body? (' ' :: rest)).bind fun body => some ⟨enables, modifier?, body⟩ := fun _ _ => Option.map_eq_bind
  rw [draft?, hinside, hmap]
  simp only [Option.bind_eq_bind, Option.bind_some, hblank, after?_append]
  cases action with
  | disable => simp [Action.written, Action.modifier?, after?]
  | enable => simp [Action.written, Action.modifier?, after?]
  | disableLine scope =>
    have hname : ∀ c ∈ scope.name.toList, isWordChar c = true := by
      rw [← List.all_eq_true]
      cases scope <;> decide
    have hspace : isWordChar ' ' = false := by decide
    have htake : (scope.name.toList ++ ' ' :: rest).takeWhile isWordChar = scope.name.toList := by
      rw [List.takeWhile_append_of_pos hname]
      simp [hspace]
    have hdrop : (scope.name.toList ++ ' ' :: rest).dropWhile isWordChar = ' ' :: rest := by
      rw [List.dropWhile_append_of_pos hname]
      simp [hspace]
    simp [Action.written, Action.modifier?, after?, htake, hdrop]

lemma ofName?_name (scope : LineScope) : LineScope.ofName? scope.name = some scope := by cases scope <;> rfl

/-- The directive of a body that begins with a space. -/
lemma directive_mk (action : Action) {body : List Char} (hbody : body.head? = some ' ')
    (hne : words ≠ []) (hwords : Directive.words (beforeExplanation body) = words) (comment : List Char) :
    (Draft.mk (decide (action = .enable)) action.modifier? body).directive comment = .ok ⟨action, words⟩ := by
  have haction : (Draft.mk (decide (action = .enable)) action.modifier? body).action = .ok action := by
    cases action with
    | disable => rfl
    | enable => rfl
    | disableLine scope => simp [Draft.action, Action.modifier?, ofName?_name]
  have hempty : words.isEmpty = false := by simpa using hne
  simp [Draft.directive, haction, hbody, hwords, hempty, show isBlank ' ' = true by decide, bind, Except.bind, pure,
    Except.pure]

/-- The body of a directive that was written begins with a space, and its words are the rules. -/
lemma exists_body?_written (form : CommentForm) {explanation? : Option String}
    (hwords : ∀ word ∈ words, IsRuleWord word) (hexplanation : ∀ explanation ∈ explanation?, IsExplanation explanation) :
    ∃ rest, body? (spread words ++ (explanation?.elim "" (" - " ++ ·)).toList ++ form.closing.toList) =
        some (spread words ++ rest) ∧ Directive.words (beforeExplanation (spread words ++ rest)) = words := by
  have hread {rest : List Char} (hrest : beforeExplanation rest = [] ∨ beforeExplanation rest = [' ']) :
      Directive.words (beforeExplanation (spread words ++ rest)) = words := by
    rw [beforeExplanation_spread hwords]
    exact words_spread hwords hrest
  have hcut (rest : List Char) : beforeExplanation (" - ".toList ++ rest) = [] := by simp [beforeExplanation, after?]
  cases explanation? with
  | none =>
    cases form with
    | line => exact ⟨[], by simpa [CommentForm.closing] using body?_spread hwords, hread (Or.inl rfl)⟩
    | block =>
      refine ⟨[' '], ?_, hread (Or.inr rfl)⟩
      simpa [CommentForm.closing] using body?_block (newline_notMem_spread hwords)
  | some explanation =>
    have hexplanation := hexplanation explanation rfl
    cases form with
    | line =>
      obtain ⟨rest, hrest⟩ := body?_spread_explanation hwords hexplanation
      exact ⟨" - ".toList ++ rest, by simpa [CommentForm.closing] using hrest, hread (Or.inl (hcut rest))⟩
    | block =>
      refine ⟨" - ".toList ++ (explanation.toList ++ [' ']), ?_, hread (Or.inl (hcut _))⟩
      have hline : '\n' ∉ spread words ++ (" - ".toList ++ explanation.toList) := by
        simp [newline_notMem_spread hwords, hexplanation.1]
      simpa [CommentForm.closing] using body?_block hline

/-- A directive is read as it was written, as a comment of either form and with any explanation. -/
theorem ofComment_written (directive : Directive) (form : CommentForm) (explanation? : Option String)
    (hne : directive.rules ≠ []) (hrules : ∀ word ∈ directive.rules, IsRuleWord word)
    (hexplanation : ∀ explanation ∈ explanation?, IsExplanation explanation) :
    ofComment (directive.written form explanation?) = .ok (some directive) := by
  obtain ⟨action, rules⟩ := directive
  obtain ⟨rest, hbody, hwords⟩ := exists_body?_written form hrules hexplanation
  obtain ⟨start, hstart⟩ : ∃ start, spread rules = ' ' :: start := ⟨_, (cons_toList_intercalate hne).symm⟩
  have htext : (written ⟨action, rules⟩ form explanation?).toList = form.opening.toList ++ ("kestrel:".toList ++
      (action.written.toList ++ ' ' :: (start ++ (explanation?.elim "" (" - " ++ ·)).toList ++ form.closing.toList))) := by
    rw [← List.cons_append, ← List.cons_append, ← hstart, ← cons_toList_intercalate hne]
    simp [written]
  have hdraft := draft?_written form action (start ++ (explanation?.elim "" (" - " ++ ·)).toList ++ form.closing.toList)
  rw [← List.cons_append, ← List.cons_append, ← hstart, hbody, Option.map_some] at hdraft
  rw [ofComment, htext, ← List.cons_append, ← List.cons_append, ← hstart, hdraft]
  simp only [directive_mk action (by rw [hstart]; rfl) hne hwords]
  rfl

/-- Words may hold hyphens, stars and slashes, and an explanation may look like the end of a comment. -/
theorem ofComment_written_stars :
    (∀ word ∈ ["a*/b", "--", "/"], IsRuleWord word) ∧ IsExplanation "not - now **/" ∧
      ofComment "// kestrel:disable:next a*/b -- / - not - now **/" =
        .ok (some ⟨.disableLine .next, ["a*/b", "--", "/"]⟩) ∧
      (∀ word ∈ ["-x", "*"], IsRuleWord word) ∧
      ofComment "/* kestrel:enable -x * */" = .ok (some ⟨.enable, ["-x", "*"]⟩) := by
  have hline : ∀ word ∈ ["a*/b", "--", "/"], IsRuleWord word := by decide +kernel
  have hexplanation : IsExplanation "not - now **/" := by decide +kernel
  have hblock : ∀ word ∈ ["-x", "*"], IsRuleWord word := by decide +kernel
  exact ⟨hline, hexplanation,
    ofComment_written ⟨.disableLine .next, _⟩ .line (some "not - now **/") (by simp) hline (by simpa using hexplanation),
    hblock, ofComment_written ⟨.enable, _⟩ .block none (by simp) hblock (by simp)⟩

end Directive

end SwiftTidy

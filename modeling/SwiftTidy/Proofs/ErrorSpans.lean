import SwiftTidy.Proofs.Boundaries
import Mathlib.Data.List.Nodup

/-!
# Where errors point

What is wrong with a token is wrong with it in any text (`Lexer.lexChars_of_mem`), and is reported where the token
begins. There is at most one error for each token, so the errors stand in the order of their tokens. An error also ends
with its token, except that a name which lacks its second backtick ends with its line, and its error with the text.
-/

namespace SwiftTidy

namespace Lexer

variable {cs : List Char}

lemma problem?_of_marker {c : Char} (h : (scan c cs).kind = .conditionalMarker) : (scan c cs).problem? = none := by
  have hform := form_of_kind_eq_marker h
  rw [scan_eq_form, hform, Form.scan] at h ⊢
  rw [(scanPound_eq_marker h).1]
  rfl

/-- What is wrong with a token does not depend on what follows it. -/
lemma problem?_scan_take (c : Char) (cs : List Char)
    (hkind : (scan c (cs.take (scan c cs).more)).kind = (scan c cs).kind) :
    (scan c (cs.take (scan c cs).more)).problem? = (scan c cs).problem? := by
  by_cases hmarker : (scan c cs).kind = .conditionalMarker
  · rw [problem?_of_marker hmarker, problem?_of_marker (hkind.trans hmarker)]
  · have hsplit : cs.take (scan c cs).more ++ cs.drop (scan c cs).more = cs := List.take_append_drop _ _
    have hend : Fore [] (cs.drop (scan c cs).more) := List.nil_prefix
    have hscan := scan_congr (c := c) (w := cs.take (scan c cs).more) hend (by simpa [hsplit] using more_scan_le c cs)
      (by rwa [hsplit]) (by simp)
    rw [hsplit, List.append_nil] at hscan
    rw [hscan]

/-- A token is read from its own text with what is wrong with it. -/
lemma lexChars_of_mem {found : Lexed} (h : found ∈ lexChars cs) : lexChars found.token.text.toList = [found] := by
  induction cs using lexChars.induct with
  | case1 => simp [lexChars] at h
  | case2 c cs first ih =>
    have hread : tokens (Token.chars [found.token]) = [found.token] :=
      tokens_chars_of_infix ((List.singleton_infix_iff _ _).2 (List.mem_map_of_mem h))
    rw [lexChars, List.mem_cons] at h
    rcases h with rfl | h
    · simp only [Token.chars_cons, Token.chars_nil, List.append_nil, String.toList_ofList, tokens_cons, List.cons.injEq,
        Token.mk.injEq] at hread ⊢
      rw [lexChars, problem?_scan_take c cs hread.1.1, hread.1.1, hread.1.2, List.map_eq_nil_iff.1 hread.2]
    · exact ih h

end Lexer

namespace Token

variable {start : Nat} {tokens : List Token}

/-- The tokens of a row take up bytes behind those before it, in order. -/
lemma pairwise_spans (start : Nat) (h : ∀ token ∈ tokens, token.Sound) :
    (spans start tokens).Pairwise (fun a b => a.start < b.start) ∧ ∀ span ∈ spans start tokens, start ≤ span.start := by
  induction tokens generalizing start with
  | nil => simp [spans]
  | cons token tokens ih =>
    have hpos := (h token (by simp)).width_pos
    obtain ⟨hpairwise, hle⟩ := ih (start + token.width) fun other hother => h other (by simp [hother])
    refine ⟨List.pairwise_cons.2 ⟨fun span hspan => ?_, hpairwise⟩, fun span hspan => ?_⟩
    · have := hle span hspan
      simp only
      omega
    · obtain rfl | hspan := List.mem_cons.1 hspan
      · exact le_rfl
      · have := hle span hspan
        omega

lemma eq_of_mem_spans (h : ∀ token ∈ tokens, token.Sound) {a b : Span} (ha : a ∈ spans start tokens)
    (hb : b ∈ spans start tokens) (hab : a.start = b.start) : a = b := by
  have hnodup : ((spans start tokens).map Span.start).Nodup :=
    List.pairwise_map.2 ((pairwise_spans start h).1.imp Nat.ne_of_lt)
  exact List.inj_on_of_nodup_map hnodup ha hb hab

end Token

variable {found : Lexed} {problem : LexProblem} {span : Span} {text : String}

/-- A token that is found with its span stands behind the tokens that take up the bytes before it. -/
lemma exists_of_mem_zip_spans {start : Nat} {row : List Lexed}
    (h : (found, span) ∈ row.zip (Token.spans start (row.map Lexed.token))) :
    ∃ front back, row = front ++ found :: back ∧
      span.start = start + (Token.textOf (front.map Lexed.token)).utf8ByteSize ∧
      span.stop = span.start + found.token.width := by
  induction row generalizing start with
  | nil => simp at h
  | cons first row ih =>
    rw [List.map_cons, Token.spans, List.zip_cons_cons, List.mem_cons] at h
    obtain h | h := h
    · obtain ⟨rfl, rfl⟩ := Prod.mk.inj h
      exact ⟨[], row, rfl, by simp, rfl⟩
    · obtain ⟨front, back, rfl, hstart, hstop⟩ := ih h
      exact ⟨first :: front, back, rfl, by simp [hstart, Token.width, Nat.add_assoc], hstop⟩

/-- The errors of a text are those of its tokens, in order. -/
lemma exists_of_mem_lexErrors {error : LexError} (h : error ∈ lexErrors text) :
    ∃ front found back span, lex text = front ++ found :: back ∧ found.problem? = some error.problem ∧
      span ∈ Token.spans 0 (tokensOf text) ∧ span.start = (Token.textOf (front.map Lexed.token)).utf8ByteSize ∧
      span.stop = span.start + found.token.width ∧ error.span = error.problem.reportedAt text.utf8ByteSize span := by
  obtain ⟨⟨found, span⟩, hmem, hfound⟩ := List.mem_filterMap.1 h
  obtain ⟨problem, hproblem, rfl⟩ := Option.map_eq_some_iff.1 hfound
  obtain ⟨front, back, hrow, hstart, hstop⟩ := exists_of_mem_zip_spans hmem
  exact ⟨front, found, back, span, hrow, hproblem, (List.of_mem_zip hmem).2, by rw [hstart, Nat.zero_add], hstop, rfl⟩

lemma lexErrors_alone (h : found ∈ lex text) (hproblem : found.problem? = some problem) :
    lexErrors found.token.text = [⟨problem, ⟨0, found.token.width⟩⟩] := by
  have hlex : lex found.token.text = [found] := Lexer.lexChars_of_mem h
  cases problem <;> simp [lexErrors, hlex, hproblem, Token.spans, LexProblem.reportedAt, Token.width]

lemma start_reportedAt (size : Nat) (span : Span) (problem : LexProblem) :
    (problem.reportedAt size span).start = span.start := by
  cases problem <;> rfl

lemma reportedAt_eq {size : Nat} (h : problem = .unterminatedName → size = span.stop) :
    problem.reportedAt size span = span := by
  cases problem with
  | unterminatedName => rw [h rfl]; rfl
  | _ => rfl

lemma pairwise_lexErrors (text : String) : (lexErrors text).Pairwise fun a b => a.span.start < b.span.start := by
  refine List.pairwise_filterMap.2 ?_
  have hspans : ((lex text).zip (Token.spans 0 (tokensOf text))).map Prod.snd = Token.spans 0 (tokensOf text) :=
    List.map_snd_zip (by simp [Tree.length_spans, tokensOf])
  have hpairwise := (Token.pairwise_spans 0 fun token (htoken : token ∈ tokensOf text) =>
    Lexer.sound_of_mem_tokens htoken).1
  rw [← hspans, List.pairwise_map] at hpairwise
  refine hpairwise.imp ?_
  rintro ⟨first, span⟩ ⟨second, span'⟩ hlt a ha b hb
  obtain ⟨problem, -, rfl⟩ := Option.map_eq_some_iff.1 ha
  obtain ⟨problem', -, rfl⟩ := Option.map_eq_some_iff.1 hb
  simpa only [start_reportedAt] using hlt

/-- Errors stand in the order of where they begin. Each begins where a token does that has this error, and only this
one, in its own text. It ends there as well, and no other token has the same span, unless the token is a name that lacks
its second backtick and does not end the text. Then the error goes on to the end of the text, and no token does so. -/
theorem lexErrors_at_tokens (text : String) :
    (lexErrors text).Pairwise (fun a b => a.span.start < b.span.start) ∧
    ∀ error ∈ lexErrors text, ∃ front token back, tokensOf text = front ++ token :: back ∧
      error.span.start = (Token.textOf front).utf8ByteSize ∧
      lexErrors token.text = [⟨error.problem, ⟨0, token.width⟩⟩] ∧
      if error.problem = .unterminatedName ∧ back ≠ [] then
        error.span.stop = text.utf8ByteSize ∧ (Token.spans 0 (tokensOf text)).count error.span = 0
      else
        error.span.stop = error.span.start + token.width ∧ (Token.spans 0 (tokensOf text)).count error.span = 1 := by
  refine ⟨pairwise_lexErrors text, fun error herror => ?_⟩
  obtain ⟨front, found, back, span, hrow, hproblem, hspan, hstart, hstop, hreported⟩ := exists_of_mem_lexErrors herror
  have htokens : tokensOf text = front.map Lexed.token ++ found.token :: back.map Lexed.token := by
    simp [tokensOf, hrow]
  have hsound : ∀ token ∈ tokensOf text, token.Sound := fun token htoken => Lexer.sound_of_mem_tokens htoken
  have hsize : text.utf8ByteSize = span.stop + (Token.textOf (back.map Lexed.token)).utf8ByteSize := by
    rw [hstop, hstart, ← textOf_tokensOf text, htokens]
    simp [Token.textOf_append, Token.width, Nat.add_assoc]
  have hbegin : error.span.start = span.start := by rw [hreported, start_reportedAt]
  have hfound : found ∈ lex text := by simp [hrow]
  refine ⟨_, found.token, _, htokens, hbegin.trans hstart, lexErrors_alone hfound hproblem, ?_⟩
  split
  next hname =>
    have hend : error.span.stop = text.utf8ByteSize := by rw [hreported, hname.1]; rfl
    refine ⟨hend, List.count_eq_zero.2 fun hmem => ?_⟩
    -- a token with this span would be the name, which ends before the text does
    obtain ⟨next, rest, hback⟩ := List.exists_cons_of_ne_nil hname.2
    have hwidth : 0 < next.text.utf8ByteSize := (hsound next (by simp [htokens, hback])).width_pos
    rw [Token.eq_of_mem_spans hsound hmem hspan hbegin, hsize, hback, Token.textOf_cons,
      String.utf8ByteSize_append] at hend
    omega
  next hname =>
    have hspans : (Token.spans 0 (tokensOf text)).Nodup := (Token.pairwise_spans 0 hsound).1.imp fun hlt heq => by
      simp [heq] at hlt
    have heq : error.span = span := by
      rw [hreported]
      refine reportedAt_eq fun hproblem => ?_
      have hback := not_not.1 (not_and.1 hname hproblem)
      simpa [hback] using hsize
    rw [heq]
    exact ⟨hstop, List.count_eq_one_of_mem hspans hspan⟩

/-- A string that its line ends inside of, between an at sign alone and a name that lacks its second backtick. -/
theorem lexErrors_at_tokens_string :
    let text := "@ \"\u00e9\n`b\n"
    let error : LexError := ⟨.unterminatedString, ⟨2, 5⟩⟩
    error ∈ lexErrors text ∧ ∃ front token back, tokensOf text = front ++ token :: back ∧
      error.span.start = (Token.textOf front).utf8ByteSize ∧
      lexErrors token.text = [⟨error.problem, ⟨0, token.width⟩⟩] ∧
      if error.problem = .unterminatedName ∧ back ≠ [] then
        error.span.stop = text.utf8ByteSize ∧ (Token.spans 0 (tokensOf text)).count error.span = 0
      else
        error.span.stop = error.span.start + token.width ∧ (Token.spans 0 (tokensOf text)).count error.span = 1 := by
  intro text error
  have herror : error ∈ lexErrors text := by decide +kernel
  exact ⟨herror, (lexErrors_at_tokens text).2 error herror⟩

/-- There are errors that no token has the span of: that of a backtick reaches past the end of its line. -/
theorem unterminated_name_overruns :
    ¬ ∀ (text : String), ∀ error ∈ lexErrors text, (Token.spans 0 (tokensOf text)).count error.span = 1 := by
  intro h
  have herror : (⟨.unterminatedName, ⟨0, 3⟩⟩ : LexError) ∈ lexErrors "`a\n" := by decide +kernel
  exact absurd (h _ _ herror) (by decide +kernel)

end SwiftTidy

import SwiftTidy.Proofs.SwiftPlan
import SwiftTidy.Syntax.Parser
import Mathlib.Data.List.TakeWhile

/-!
# Nothing is lost

The tokens of a text are the text cut into pieces, and the leaves of its tree are these tokens. The second
part rests on the plan of the grammar: the statements of a file end only where no significant token is left,
so that the trivia which ends the file is all that still has to be moved into the tree.
-/

namespace SwiftTidy

/-! ## Tokens and text -/

namespace Token

@[simp] lemma textOf_nil : textOf [] = "" := rfl

@[simp] lemma textOf_cons (token : Token) (rest : List Token) :
    textOf (token :: rest) = token.text ++ textOf rest := by
  simp [textOf, String.join_cons]

lemma toList_textOf (tokens : List Token) :
    (textOf tokens).toList = tokens.flatMap fun token => token.text.toList := by
  simp [textOf, String.toList_join, List.flatMap_map]

end Token

namespace Lexer

lemma toList_textOf_lexChars (cs : List Char) :
    (Token.textOf ((lexChars cs).map Lexed.token)).toList = cs := by
  induction cs using lexChars.induct with
  | case1 => simp [lexChars]
  | case2 c cs first ih =>
    rw [lexChars, List.map_cons, Token.textOf_cons, String.toList_append, ih]
    simp [first]

end Lexer

lemma textOf_tokensOf (text : String) : Token.textOf (tokensOf text) = text := by
  rw [← String.toList_inj]
  exact Lexer.toList_textOf_lexChars text.toList

namespace Grammar

open Token (significant)

lemma pastGap_eq_nil {r : List Token} (h : significant r = []) : pastGap r = [] := by
  rw [pastGap, List.dropWhile_eq_nil_iff]
  simpa [significant] using h

/-! ## The end of a file -/

/-- A row of statements ends only before a token at which it may end. -/
lemma rest_statements {n : Nat} (ending : Ending) {s : Progress}
    (hn : swiftGuide.effort (.statements ending) s.rest < n) :
    (Test.sees 0 fun kind => !ending.stops kind).holds
      (derive swift n (.statements ending) s).rest = false := by
  refine swiftPlan.derive_induction
    (fun X _ t => ∀ ending, X = .statements ending →
      (Test.sees 0 fun kind => !ending.stops kind).holds t.rest = false) ?_
    (fun hneeds => by simp [swiftGuide, Symbol.needsOpening] at hneeds) hn ending rfl
  intro X s _
  cases X with
  | statements ending =>
    refine ⟨fun _ t _ u hu => ?_, fun hend => ?_⟩
    · -- one more statement is read, and then the rest of the row
      rintro _ ⟨⟩
      exact hu.2.2 ending rfl
    · rintro _ ⟨⟩
      exact hend
  | _ => exact Phrase.wlp_of_forall _ (fun _ _ h => by simp at h) s

lemma effort_file (tokens : List Token) :
    swiftGuide.effort (.statements .fileEnd) tokens < openSymbols tokens := by
  simp only [Guide.effort, swiftGuide, Symbol.rank, openSymbols]
  omega

lemma significant_rest_file (tokens : List Token) :
    significant (derive swift (openSymbols tokens) (.statements .fileEnd) ⟨[], tokens⟩).rest = [] := by
  have hend := rest_statements .fileEnd (s := ⟨[], tokens⟩) (effort_file tokens)
  simpa [Ending.stops, ← List.head?_eq_getElem?] using hend

end Grammar

open Grammar

lemma leaves_parseTokens (tokens : List Token) : (parseTokens tokens).leaves = tokens := by
  have hkept := tokens_derive swift (openSymbols tokens) (.statements .fileEnd) ⟨[], tokens⟩
  rw [← Progress.tokens_flush] at hkept
  simpa [parseTokens, Progress.tokens, pastGap_eq_nil (significant_rest_file tokens)] using hkept

lemma text_parse (text : String) : (parse text).text = text := by
  have hleaves : (parse text).leaves = tokensOf text := leaves_parseTokens _
  rw [Tree.text, hleaves, textOf_tokensOf]

/-- The tree of a text is one `sourceFile` node, its leaves are the tokens of the text, and its text is the
text. -/
theorem parse_lossless (text : String) :
    (∃ children, parse text = .node .sourceFile children) ∧
      (parse text).leaves = tokensOf text ∧ (parse text).text = text := by
  have hleaves : (parse text).leaves = tokensOf text := leaves_parseTokens _
  refine ⟨⟨_, rfl⟩, hleaves, ?_⟩
  rw [Tree.text, hleaves, textOf_tokensOf]

end SwiftTidy

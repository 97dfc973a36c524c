import SwiftTidy.Proofs.Descent
import SwiftTidy.Proofs.Rereading

/-!
# Reading a corrected tree again

The text of a corrected tree need not be read as the tokens that the tree consists of: where something was taken out
or put in, two tokens may have come to stand next to each other that the lexer takes for one. Such a place is a seam.
Away from the seams every token is followed by what followed it in the text, and it is read as it was. Hence the
tokens come back if and only if the lexer cuts them off at the seams (`Linter.reread_correct`).
-/

namespace SwiftTidy

open Token Lexer Rules.Expectation

/-- A token of a row, with the tokens behind it, whose next two neighbours it has nowhere in the row `before`. -/
def Seam (before after : List Token) (token : Token) (back : List Token) : Prop :=
  (token :: back) <:+ after ∧ token.isBlank = false ∧
    ¬ ∃ rest, (token :: rest) <:+ before ∧ rest.take 2 = back.take 2

/-! ## Connectives -/

variable {token : Token}

lemma sound_of_all (h : (token.text.toList.head?.any fun c => token.isBlank == Text.isBlank c) = true)
    (hblank : (!token.isBlank || token.text.toList.all Text.isBlank) = true) : token.Sound := by
  cases htext : token.text.toList with
  | nil => simp [htext] at h
  | cons c w =>
    simp only [htext, List.head?_cons, Option.any_some, beq_iff_eq] at h
    refine ⟨c, w, htext, h, fun htoken d hd => ?_⟩
    simp only [htoken, htext, Bool.not_true, Bool.false_or, List.all_eq_true] at hblank
    exact hblank d (by simp [hd])

lemma sound_of_mem_connectives : ∀ token ∈ connectives, token.Sound := by
  have hall : ∀ token ∈ connectives,
      (token.text.toList.head?.any fun c => token.isBlank == Text.isBlank c) = true ∧
        (!token.isBlank || token.text.toList.all Text.isBlank) = true := by decide +kernel
  exact fun token htoken => sound_of_all (hall token htoken).1 (hall token htoken).2

lemma not_mem_connectives_of_backtick (h : '`' ∈ token.text.toList) : token ∉ connectives := by
  have hnone : ∀ token ∈ connectives, '`' ∉ token.text.toList := by decide +kernel
  exact fun htoken => hnone token htoken h

/-! ## Names in backticks -/

lemma mem_take_of_backtickExtent? {cs : List Char} {n : Nat} (h : backtickExtent? cs = some n) : '`' ∈ cs.take n := by
  induction cs generalizing n with
  | nil => simp [backtickExtent?] at h
  | cons c cs ih =>
    by_cases hc : c = '`'
    · simp [backtickExtent?, hc] at h
      simp [← h, hc]
    · simp only [backtickExtent?, beq_eq_false_iff_ne.2 hc, Bool.false_eq_true, if_false,
        Option.map_eq_some_iff] at h
      obtain ⟨m, hm, rfl⟩ := h
      simp [ih hm]

lemma Lexer.Cuts.not_mem_of_open {rest w : List Char} (h : Cuts token rest) (htext : token.text.toList = '`' :: w)
    (hopen : '`' ∉ w) : '`' ∉ rest := by
  obtain ⟨c, w', htext', -, htake⟩ := cuts_iff.1 h
  rw [htext, List.cons.injEq] at htext'
  obtain ⟨rfl, rfl⟩ := htext'
  intro hrest
  cases hextent : backtickExtent? (w ++ rest) with
  | none => exact backtickExtent?_eq_none_iff.1 hextent (by simp [hrest])
  | some n =>
    have hscan : scan '`' (w ++ rest) = plain .ident n := by
      rw [scan, scanEscapedName, hextent]
    rw [hscan] at htake
    exact hopen (htake ▸ mem_take_of_backtickExtent? hextent)

lemma exists_suffix_of_sublist {a b : Token} {row : List Token} (h : [a, b].Sublist row) :
    ∃ back, (a :: back) <:+ row ∧ b ∈ back := by
  obtain ⟨front, back, rfl, hfront, hback⟩ := List.cons_sublist_iff.1 h
  obtain ⟨u, v, rfl⟩ := List.append_of_mem hfront
  exact ⟨v ++ back, ⟨u, by simp⟩, by simp [List.singleton_sublist.1 hback]⟩

namespace Descends

variable {text : String} {tree : Tree} {back : List Token} {token : Token}

lemma mem_or_mem {tokens : List Token} (h : Descends tokens tree) (htoken : token ∈ tree.leaves) :
    token ∈ connectives ∨ token ∈ tokens := by
  by_cases hconnective : token ∈ connectives
  · exact Or.inl hconnective
  · have hmem : token ∈ original tree.leaves := by simp [original, htoken, hconnective]
    exact Or.inr (List.mem_filter.1 (h.tokens.subset hmem)).1

variable (h : Descends (tokensOf text) tree)

include h

lemma sound : ∀ token ∈ tree.leaves, token.Sound := by
  intro token htoken
  rcases h.mem_or_mem htoken with hmem | hmem
  · exact sound_of_mem_connectives token hmem
  · exact sound_of_mem_tokens hmem

/-- A name that lacks its second backtick in the text finds none behind it in the tree. -/
lemma not_mem_chars_of_open {w : List Char} (hback : (token :: back) <:+ tree.leaves)
    (htext : token.text.toList = '`' :: w) (hopen : '`' ∉ w) : '`' ∉ chars back := by
  intro hmem
  obtain ⟨other, hother, htick⟩ : ∃ other ∈ back, '`' ∈ other.text.toList := by
    rw [chars, toList_textOf, List.mem_flatMap] at hmem
    exact hmem
  have hpair : [token, other].Sublist tree.leaves := by
    refine List.Sublist.trans ?_ hback.sublist
    exact (List.singleton_sublist.2 hother).cons_cons token
  have hboth : original [token, other] = [token, other] := by
    rw [original, List.filter_eq_self]
    intro t ht
    have htickt : '`' ∈ t.text.toList := by
      simp only [List.mem_cons, List.not_mem_nil, or_false] at ht
      rcases ht with rfl | rfl
      · simp [htext]
      · exact htick
    simpa using not_mem_connectives_of_backtick htickt
  have hsub : [token, other].Sublist (tokensOf text) := by
    rw [← hboth]
    exact ((original_sublist hpair).trans h.tokens).trans List.filter_sublist
  obtain ⟨rest, hrest, hin⟩ := exists_suffix_of_sublist hsub
  refine (cuts_of_tokens hrest).not_mem_of_open htext hopen ?_
  rw [chars, toList_textOf, List.mem_flatMap]
  exact ⟨other, hin, htick⟩

/-- Away from the seams every token is cut off. -/
lemma cuts_of_not_seam (hback : (token :: back) <:+ tree.leaves) (hsolid : token.isBlank = false)
    (hseam : ¬ Seam (tokensOf text) tree.leaves token back) : Cuts token (chars back) := by
  obtain ⟨rest, hrest, htake⟩ : ∃ rest, (token :: rest) <:+ tokensOf text ∧ rest.take 2 = back.take 2 := by
    by_contra hnone
    exact hseam ⟨hback, hsolid, hnone⟩
  have hsuffix : rest <:+ tokensOf text := (List.suffix_cons _ _).trans hrest
  refine (cuts_of_tokens hrest).congr (fun t r hr => cuts_of_tokens (hr.trans hsuffix))
    (fun t ht => sound_of_mem_tokens (hsuffix.subset ht)) (by rw [Fore, htake]) ?_
  intro w htext hopen
  exact h.not_mem_chars_of_open hback htext fun hw => hopen (by simp [hw])

lemma nonBlank_tokensOf_iff :
    nonBlank (tokensOf tree.text) = nonBlank tree.leaves ↔
      ∀ token back, Seam (tokensOf text) tree.leaves token back → Cuts token (chars back) := by
  have hread : tokensOf tree.text = Lexer.tokens (chars tree.leaves) := rfl
  rw [hread, nonBlank_tokens_iff h.sound]
  constructor
  · exact fun hcuts token back hseam => hcuts token back hseam.1 hseam.2.1
  · intro hcuts token back hback hsolid
    by_cases hseam : Seam (tokensOf text) tree.leaves token back
    · exact hcuts token back hseam
    · exact h.cuts_of_not_seam hback hsolid hseam

end Descends

lemma significant_nonBlank (row : List Token) : significant (nonBlank row) = significant row := by
  rw [significant, nonBlank, List.filter_filter]
  refine List.filter_congr fun token _ => ?_
  cases hblank : token.isBlank with
  | false => simp
  | true =>
    simp only [Token.isBlank, Bool.or_eq_true, beq_iff_eq] at hblank
    rcases hblank with hkind | hkind <;> simp [Token.isTrivia, hkind, Kind.isTrivia]

namespace Linter

/-- The tokens of a corrected text, blanks aside, are read again as they are if and only if the lexer cuts them off at
the seams, and in this case the significant ones are. -/
theorem reread_correct (linter : Linter) (hrules : ∀ active ∈ linter.rules, active.rule.IsBuiltin) (text : String) :
    let corrected := (linter.correct (Source.ofText text)).source.tree
    (nonBlank (tokensOf corrected.text) = nonBlank corrected.leaves ↔
      ∀ token back, Seam (tokensOf text) corrected.leaves token back → Cuts token (chars back)) ∧
    ((∀ token back, Seam (tokensOf text) corrected.leaves token back → Cuts token (chars back)) →
      significant (tokensOf corrected.text) = significant corrected.leaves) := by
  intro corrected
  have hiff := (linter.descends_correct hrules text).nonBlank_tokensOf_iff
  refine ⟨hiff, fun hcuts => ?_⟩
  rw [← significant_nonBlank, hiff.2 hcuts, significant_nonBlank]

/-- The linter of both rules. -/
def builtin : Linter := ⟨Rules.builtin.map ActiveRule.ofRule⟩

lemma isBuiltin_of_mem_builtin : ∀ active ∈ builtin.rules, active.rule.IsBuiltin := by
  intro active hactive
  obtain ⟨rule, hrule, rfl⟩ := List.mem_map.1 hactive
  exact Rule.isBuiltin_of_mem hrule

/-- Both rules have something to correct, and the tokens come back. -/
theorem reread_correct_run :
    let text := "func run() -> Void { expect(a).to(equal(b)) }\n"
    let corrected := (builtin.correct (Source.ofText text)).source.tree
    (∀ active ∈ builtin.rules, active.rule.IsBuiltin) ∧
      nonBlank (tokensOf corrected.text) = nonBlank corrected.leaves ∧
      significant (tokensOf corrected.text) = significant corrected.leaves := by
  intro text corrected
  have hread : nonBlank (tokensOf corrected.text) = nonBlank corrected.leaves := by decide +kernel
  have h := reread_correct builtin isBuiltin_of_mem_builtin text
  exact ⟨isBuiltin_of_mem_builtin, hread, h.2 (h.1.1 hread)⟩

/-- Without a blank before the arrow, the parameter of a closure and the keyword behind its signature become one
name. -/
theorem reread_correct_fused :
    let corrected := (builtin.correct (Source.ofText "run { arg->Void in x }\n")).source.tree
    significant (tokensOf corrected.text) ≠ significant corrected.leaves := by
  decide +kernel

end Linter

end SwiftTidy

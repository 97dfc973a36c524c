import SwiftTidy.Proofs.Lossless
import Mathlib.Data.List.Forall2

/-!
# What trivia can tell

Blanks, comments and conditional markers stand in the gaps around the significant tokens. A grammar cannot tell
what they say. All that it finds out about a gap is whether anything stands in it and whether a line ends in it,
so two rows of tokens that agree on this, gap by gap, and on their significant tokens lead to the same decisions
(`derive_alike`). The trees that are built differ in their trivia only: without it they are the same
(`bare_parseTokens_eq`).
-/

namespace SwiftTidy

/-! ## Trees without trivia -/

namespace Tree

mutual

/-- Whether two trees are the same. -/
def same : Tree → Tree → Bool
  | .leaf token, .leaf other => token == other
  | .node kind children, .node other others => kind == other && sameRow children others
  | _, _ => false

/-- Whether two rows of trees are the same. -/
def sameRow : List Tree → List Tree → Bool
  | [], [] => true
  | tree :: rest, other :: others => same tree other && sameRow rest others
  | _, _ => false

end

mutual

lemma same_iff (a b : Tree) : same a b = true ↔ a = b := by
  cases a with
  | leaf token => cases b <;> simp [same]
  | node kind children =>
    cases b with
    | leaf token => simp [same]
    | node other others => simp [same, sameRow_iff children others]

lemma sameRow_iff (a b : List Tree) : sameRow a b = true ↔ a = b := by
  cases a with
  | nil => cases b <;> simp [sameRow]
  | cons tree rest =>
    cases b with
    | nil => simp [sameRow]
    | cons other others => simp [sameRow, same_iff tree other, sameRow_iff rest others]

end

instance : DecidableEq Tree := fun a b => decidable_of_iff _ (same_iff a b)

/-- Whether a tree is a token that the grammar passes over. -/
def isTriviaLeaf : Tree → Bool
  | .leaf token => token.isTrivia
  | .node _ _ => false

mutual

/-- A tree without its trivia. No node is dropped, not even one that is left with no children. -/
def bare : Tree → Tree
  | .leaf token => .leaf token
  | .node kind children => .node kind (bareOf children)

/-- Several trees in a row without their trivia. -/
def bareOf : List Tree → List Tree
  | [] => []
  | tree :: rest => if tree.isTriviaLeaf then bareOf rest else tree.bare :: bareOf rest

end

@[simp] lemma bare_node (kind : Kind) (children : List Tree) :
    (Tree.node kind children).bare = .node kind (bareOf children) := by
  rw [bare]

@[simp] lemma bareOf_nil : bareOf [] = [] := by
  rw [bareOf]

lemma bareOf_leaf_cons (token : Token) (rest : List Tree) :
    bareOf (.leaf token :: rest) = if token.isTrivia then bareOf rest else .leaf token :: bareOf rest := by
  rw [bareOf, bare, isTriviaLeaf]

@[simp] lemma bareOf_node_cons (kind : Kind) (children rest : List Tree) :
    bareOf (.node kind children :: rest) = .node kind (bareOf children) :: bareOf rest := by
  rw [bareOf, bare, isTriviaLeaf, if_neg Bool.false_ne_true]

@[simp] lemma bareOf_append (front back : List Tree) : bareOf (front ++ back) = bareOf front ++ bareOf back := by
  induction front with
  | nil => simp
  | cons tree rest ih =>
    cases tree with
    | leaf token =>
      simp only [List.cons_append, bareOf_leaf_cons, ih]
      split <;> rfl
    | node kind children => simp [ih]

lemma bareOf_map_leaf (tokens : List Token) :
    bareOf (tokens.map .leaf) = (Token.significant tokens).map .leaf := by
  induction tokens with
  | nil => simp [Token.significant]
  | cons token rest ih =>
    rw [List.map_cons, bareOf_leaf_cons, ih]
    by_cases h : token.isTrivia <;> simp [Token.significant, h]

lemma leavesOf_bareOf (trees : List Tree) : leavesOf (bareOf trees) = Token.significant (leavesOf trees) := by
  cases trees with
  | nil => rw [bareOf_nil]; rfl
  | cons tree rest =>
    have hrest := leavesOf_bareOf rest
    cases tree with
    | leaf token =>
      rw [bareOf_leaf_cons, leavesOf_cons]
      cases h : token.isTrivia with
      | true => simpa [Token.significant, h, leaves_leaf] using hrest
      | false => simpa [Token.significant, h, leaves_leaf, leavesOf_cons] using hrest
    | node kind children =>
      rw [bareOf_node_cons, leavesOf_cons, leavesOf_cons, leaves_node, leaves_node, leavesOf_bareOf children, hrest]
      simp [Token.significant]

end Tree

namespace Grammar

open Token (significant)

/-! ## Gaps -/

/-- The trivia in every gap of a row of tokens: before the first significant token, between two of them, and
after the last one. -/
def gaps (r : List Token) : List (List Token) := r.splitOnP fun token => !token.isTrivia

/-- Two gaps that look the same: trivia stands in both or in none, and a line ends in both or in none. -/
def SameGap (a b : List Token) : Prop := (a = [] ↔ b = []) ∧ a.any Token.breaksLine = b.any Token.breaksLine

instance (a b : List Token) : Decidable (SameGap a b) := inferInstanceAs (Decidable (_ ∧ _))

/-- Two rows with the same significant tokens whose gaps look the same. -/
structure Alike (a b : List Token) : Prop where
  significant_eq : significant a = significant b
  gaps : List.Forall₂ SameGap (gaps a) (gaps b)

lemma SameGap.refl (a : List Token) : SameGap a a := ⟨Iff.rfl, rfl⟩

lemma gaps_eq (r : List Token) :
    gaps r = gap r :: match pastGap r with
      | [] => []
      | _ :: rest => gaps rest := by
  induction r with
  | nil => simp [gaps, gap, pastGap]
  | cons t r ih =>
    unfold gaps at ih ⊢
    rw [List.splitOnP_cons_eq_if_modifyHead]
    by_cases h : t.isTrivia
    · simpa [gap, pastGap, h] using congrArg (List.modifyHead (List.cons t)) ih
    · simp [gap, pastGap, h]

lemma Alike.refl (r : List Token) : Alike r r :=
  ⟨rfl, List.forall₂_same.2 fun gap _ => SameGap.refl gap⟩

/-! ## What looks the same leads to the same decisions -/

namespace Alike

variable {a b : List Token}

lemma gap (h : Alike a b) : SameGap (gap a) (gap b) := by
  have hgaps := h.gaps
  rw [gaps_eq a, gaps_eq b] at hgaps
  exact (List.forall₂_cons.1 hgaps).1

lemma holds_eq (h : Alike a b) (test : Test) : test.holds a = test.holds b := by
  induction test with
  | sees n p => simp [h.significant_eq]
  | spelled words => simp [h.significant_eq]
  | spaced =>
    rw [Bool.eq_iff_iff]
    simpa [Test.holds] using not_congr h.gap.1
  | broken => exact h.gap.2
  | scans p => simp [h.significant_eq]
  | both x y ihx ihy => simp [ihx, ihy]
  | either x y ihx ihy => simp [ihx, ihy]
  | fails x ih => simp [ih]

/-- The rows still look the same once the next token is taken. -/
lemma afterTake (h : Alike a b) : Alike (afterTake a) (afterTake b) := by
  have hgaps := h.gaps
  rw [gaps_eq a, gaps_eq b] at hgaps
  have htail := (List.forall₂_cons.1 hgaps).2
  refine ⟨by simpa using congrArg List.tail h.significant_eq, ?_⟩
  unfold Grammar.afterTake
  cases ha : pastGap a with
  | nil =>
    cases hb : pastGap b with
    | nil => exact (Alike.refl []).gaps
    | cons t rest =>
      have hnil : pastGap b = [] := by
        refine pastGap_eq_nil ?_
        rw [← h.significant_eq, ← significant_pastGap, ha]
        rfl
      simp [hb] at hnil
  | cons t rest =>
    cases hb : pastGap b with
    | nil =>
      have hnil : pastGap a = [] := by
        refine pastGap_eq_nil ?_
        rw [h.significant_eq, ← significant_pastGap, hb]
        rfl
      simp [ha] at hnil
    | cons u rest' => simpa [ha, hb] using htail

lemma pastGap (h : Alike a b) : Alike (pastGap a) (pastGap b) := by
  have hgaps := h.gaps
  rw [gaps_eq a, gaps_eq b] at hgaps
  refine ⟨by simpa using h.significant_eq, ?_⟩
  rw [gaps_eq (Grammar.pastGap a), gaps_eq (Grammar.pastGap b), gap_pastGap, gap_pastGap, pastGap_pastGap,
    pastGap_pastGap]
  exact List.Forall₂.cons (SameGap.refl []) (List.forall₂_cons.1 hgaps).2

end Alike

/-! ## Reading two rows that look the same -/

/-- Two stages of reading that differ in trivia only. -/
structure Progress.Alike (s t : Progress) : Prop where
  built : Tree.bareOf s.built = Tree.bareOf t.built
  rest : Grammar.Alike s.rest t.rest

namespace Progress

variable {s t : Progress}

@[simp] lemma bareOf_built_flush (s : Progress) : Tree.bareOf s.flush.built = Tree.bareOf s.built := by
  have hgap : significant (gap s.rest) = [] := by
    simp only [significant, List.filter_eq_nil_iff, Bool.not_eq_true', Bool.not_eq_false]
    exact fun token htoken => List.mem_takeWhile_imp htoken
  simp [flush, Tree.bareOf_map_leaf, hgap]

lemma bareOf_built_shift (s : Progress) :
    Tree.bareOf s.shift.built = Tree.bareOf s.built ++ (significant (s.rest.take 1)).map Tree.leaf := by
  unfold shift
  cases h : s.rest with
  | nil => simp [significant]
  | cons token rest => simpa using Tree.bareOf_map_leaf [token]

lemma Alike.flush (h : s.Alike t) : s.flush.Alike t.flush :=
  ⟨by simpa using h.built, h.rest.pastGap⟩

lemma significant_take_pastGap (r : List Token) : significant ((pastGap r).take 1) = (significant r).take 1 := by
  rw [← significant_pastGap r]
  cases hr : pastGap r with
  | nil => rfl
  | cons token rest =>
    have hgap := gap_pastGap r
    rw [hr, gap, List.takeWhile_cons] at hgap
    have htoken : token.isTrivia = false := by
      by_contra htrivia
      simp [htrivia] at hgap
    simp [significant, htoken]

lemma Alike.take (h : s.Alike t) : s.flush.shift.Alike t.flush.shift := by
  refine ⟨?_, by simpa [Grammar.afterTake] using h.rest.afterTake⟩
  rw [bareOf_built_shift, bareOf_built_shift, rest_flush, rest_flush, significant_take_pastGap,
    significant_take_pastGap, h.rest.significant_eq, bareOf_built_flush, bareOf_built_flush, h.built]

lemma Alike.fresh (h : s.Alike t) : s.flush.fresh.Alike t.flush.fresh := ⟨rfl, h.flush.rest⟩

end Progress

variable {σ : Type}

/-- A phrase goes the same way on rows that look the same, if the symbols do. -/
lemma Phrase.run_alike {call : σ → Progress → Progress}
    (hcall : ∀ X {s t : Progress}, s.Alike t → (call X s).Alike (call X t)) (phrase : Phrase σ) {s t : Progress}
    (h : s.Alike t) : (phrase.run call s).Alike (phrase.run call t) := by
  induction phrase generalizing s t with
  | skip => exact h
  | take => exact h.take
  | call X => exact hcall X h
  | seq first second ih₁ ih₂ => exact ih₂ (ih₁ h)
  | choose test yes no ih₁ ih₂ =>
    rw [run, run, h.rest.holds_eq test]
    split
    · exact ih₁ h
    · exact ih₂ h
  | node kind body ih =>
    have hinner := ih h.fresh
    exact ⟨by simp [run, h.built, hinner.built], hinner.rest⟩
  | mark body ih =>
    have hinner := ih h.fresh
    exact ⟨by simp [run, h.built, hinner.built], hinner.rest⟩
  | wrap kind body ih =>
    have hinner := ih h
    exact ⟨by simp [run, hinner.built], hinner.rest⟩

lemma derive_alike (g : σ → Phrase σ) (n : Nat) (X : σ) {s t : Progress} (h : s.Alike t) :
    (derive g n X s).Alike (derive g n X t) := by
  induction n generalizing X s t with
  | zero => exact h
  | succ n ih => exact Phrase.run_alike (fun Y _ _ => ih Y) (g X) h

end Grammar

open Grammar

lemma parseTokens_eq {tokens : List Token} {n : Nat} (hn : openSymbols tokens ≤ n) :
    parseTokens tokens = .node .sourceFile (derive swift n (.statements .fileEnd) ⟨[], tokens⟩).flush.built := by
  have heffort := effort_file tokens
  have hready : swiftPlan.ready (.statements .fileEnd) tokens := fun hneeds => by
    simp [swiftGuide, Symbol.needsOpening] at hneeds
  rw [parseTokens, (swiftPlan.derive_eq (s := ⟨[], tokens⟩) hready heffort (heffort.trans_le hn)).1]

lemma Grammar.Alike.bare_eq {a b : List Token} (h : Alike a b) :
    (parseTokens a).bare = (parseTokens b).bare := by
  have halike : Progress.Alike ⟨[], a⟩ ⟨[], b⟩ := ⟨rfl, h⟩
  have hread := derive_alike swift (max (openSymbols a) (openSymbols b)) (.statements .fileEnd) halike
  rw [parseTokens_eq (le_max_left (openSymbols a) (openSymbols b)),
    parseTokens_eq (le_max_right (openSymbols a) (openSymbols b)), Tree.bare_node, Tree.bare_node,
    hread.flush.built]

/-- What trivia says never shows in the structure of a tree: two rows of tokens with the same significant tokens,
which agree for every gap on whether trivia stands there and on whether a line ends there, are read as trees that
are the same once trivia is taken out. -/
theorem bare_parseTokens_eq (a b : List Token) (hsignificant : Token.significant a = Token.significant b)
    (hgaps : List.Forall₂ SameGap (gaps a) (gaps b)) : (parseTokens a).bare = (parseTokens b).bare :=
  Alike.bare_eq ⟨hsignificant, hgaps⟩

/-- A comment in place of a space, and one that spans lines in place of a line break. -/
theorem bare_parseTokens_eq_comments :
    let a := tokensOf "func f(x: ( , Int)) -> Void\n\x7b return\n x \x7d"
    let b := tokensOf "func/* f */f(x:\t(/**/,\tInt))  ->  Void/*\n*/\x7b return // x\n x /* end */\x7d"
    Token.significant a = Token.significant b ∧ List.Forall₂ SameGap (gaps a) (gaps b) ∧ a ≠ b ∧
      (parseTokens a).bare = (parseTokens b).bare := by
  intro a b
  have hsignificant : Token.significant a = Token.significant b := by decide +kernel
  have hgaps : List.Forall₂ SameGap (gaps a) (gaps b) := by decide +kernel
  exact ⟨hsignificant, hgaps, by decide +kernel, bare_parseTokens_eq a b hsignificant hgaps⟩

end SwiftTidy

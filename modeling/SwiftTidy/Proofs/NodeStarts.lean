import SwiftTidy.Proofs.Forms

/-!
# Where nodes start

A node that opens by itself has the trivia before it moved out of the way, and so has a mark. A node around the trees
since a mark therefore starts where the mark stands, at a significant token, whatever has been read in the meantime: the
tokens that are built and those still to come are the same row all the time, and this row does not begin with trivia.
All that has to be checked of a grammar is that its wraps reach back to a mark (`Phrase.marked`), and not to the
beginning of the file. Then no node that it builds starts with trivia (`everyStart_derive`).
-/

namespace SwiftTidy

namespace Tree

lemma exists_startAt_eq {tree part : Tree} {path : Path} (h : tree.sub? path = some part) :
    ∃ front, tree.leaves = front ++ (part.leaves ++ tree.behind path) ∧
      tree.startAt path = (Token.textOf front).utf8ByteSize := by
  induction path, tree, h using sub?_induction with
  | here => exact ⟨[], by simp [behind], by simp [startAt, Token.textOf]⟩
  | inside kind before child after path h ih =>
    obtain ⟨front, hleaves, hstart⟩ := ih
    refine ⟨leavesOf before ++ front, by simp [behind, hleaves], ?_⟩
    rw [startAt_append_cons, hstart, Token.textOf_append, String.utf8ByteSize_append, widthOf_eq_utf8ByteSize]

end Tree

namespace Grammar

variable {σ : Type}

/-! ## Properties of all nodes that are built -/

namespace Progress

variable {P : Kind → List Tree → List Token → Prop} {s t : Progress} {kind : Kind}

/-- A property holds of all nodes that are built. -/
def Every (P : Kind → List Tree → List Token → Prop) (s : Progress) : Prop := Tree.EveryOf P s.built s.rest

lemma every_fresh (s : Progress) : s.fresh.Every P := Tree.everyOf_nil

lemma Every.append (h : s.Every P) (ht : t.Every P) (htokens : t.tokens = s.rest) :
    Every P ⟨s.built ++ t.built, t.rest⟩ := by
  refine Tree.everyOf_append.2 ⟨?_, ht⟩
  rw [tokens] at htokens
  rwa [htokens]

lemma Every.node (h : t.Every P) (hP : P kind t.built t.rest) : Every P ⟨[.node kind t.built], t.rest⟩ := by
  simpa [Every] using And.intro hP h

lemma Every.flush (h : s.Every P) : s.flush.Every P :=
  h.append (t := ⟨(gap s.rest).map .leaf, pastGap s.rest⟩) (Tree.everyOf_map_leaf (gap s.rest))
    (by simp [tokens, gap_append_pastGap])

lemma Every.shift (h : s.Every P) : s.shift.Every P := by
  unfold Progress.shift
  split
  · exact h
  · next token rest hrest =>
    exact h.append (t := ⟨[.leaf token], rest⟩) (Tree.everyOf_map_leaf [token]) (by simp [tokens, hrest])

lemma tokens_fresh (s : Progress) : s.fresh.tokens = s.rest := by simp [tokens]

lemma Every.mark (h : s.Every P) (ht : t.Every P) (htokens : t.tokens = s.flush.fresh.tokens) :
    Every P ⟨s.flush.built ++ t.built, t.rest⟩ := h.flush.append ht (htokens.trans s.flush.tokens_fresh)

lemma Every.open (h : s.Every P) (ht : t.Every P) (htokens : t.tokens = s.flush.fresh.tokens)
    (hP : P kind t.built t.rest) : Every P ⟨s.flush.built ++ [.node kind t.built], t.rest⟩ := by
  refine h.flush.append (ht.node hP) ?_
  rw [tokens_fresh, tokens] at htokens
  simpa [tokens] using htokens

/-- Everything since the mark, with what is still to come, does not begin with trivia. -/
def AtMark (s : Progress) : Prop := gap s.tokens = []

lemma atMark_fresh (s : Progress) : s.flush.fresh.AtMark := by
  simp [AtMark, tokens]

lemma AtMark.first (h : s.AtMark) : ∀ token ∈ (Tree.leavesOf s.built).head?, token.isTrivia = false := by
  intro token htoken
  obtain ⟨rest, hrow⟩ := List.head?_eq_some_iff.1 htoken
  by_contra htrivia
  simp [AtMark, tokens, hrow, gap, htrivia] at h

end Progress

/-! ## Wraps that reach back to a mark -/

/-- A node does not begin with trivia. -/
def StartsSignificant (_ : Kind) (children : List Tree) (_ : List Token) : Prop :=
  ∀ token ∈ (Tree.leavesOf children).head?, token.isTrivia = false

/-- Whether the wraps of a phrase reach back to a mark, if there is one around the phrase or if there is none. The wraps
of some symbols are said to reach beyond them. -/
def Phrase.marked (reaches : σ → Bool) : Phrase σ → Bool → Bool
  | .skip, _ | .take, _ => true
  | .call X, inside => inside || !reaches X
  | .seq first second, inside => first.marked reaches inside && second.marked reaches inside
  | .choose _ yes no, inside => yes.marked reaches inside && no.marked reaches inside
  | .node _ body, _ | .mark body, _ => body.marked reaches true
  | .wrap _ body, inside => inside && body.marked reaches inside

variable {P : Kind → List Tree → List Token → Prop} {path : Path} {s : Progress} {tokens : List Token}

/-- A phrase whose wraps reach back to a mark builds no node that begins with trivia, if the symbols do not. -/
lemma Phrase.everyStart_run {reaches : σ → Bool} {call : σ → Progress → Progress}
    (htokens : ∀ X s, (call X s).tokens = s.tokens)
    (hcall : ∀ X s, (reaches X = true → s.AtMark) → s.Every StartsSignificant → (call X s).Every StartsSignificant)
    (phrase : Phrase σ) {inside : Bool} (hmarked : phrase.marked reaches inside = true) (hs : inside = true → s.AtMark)
    (h : s.Every StartsSignificant) : (phrase.run call s).Every StartsSignificant := by
  induction phrase generalizing inside s with
  | skip => exact h
  | take => exact h.flush.shift
  | call X =>
    refine hcall X s (fun hX => hs ?_) h
    simpa [marked, hX] using hmarked
  | seq first second ih₁ ih₂ =>
    rw [marked, Bool.and_eq_true] at hmarked
    refine ih₂ hmarked.2 (fun hinside => ?_) (ih₁ hmarked.1 hs h)
    rw [Progress.AtMark, tokens_run call htokens]
    exact hs hinside
  | choose test yes no ih₁ ih₂ =>
    rw [marked, Bool.and_eq_true] at hmarked
    rw [run]
    split
    · exact ih₁ hmarked.1 hs h
    · exact ih₂ hmarked.2 hs h
  | node kind body ih =>
    have hkept := tokens_run call htokens body s.flush.fresh
    have hend : (body.run call s.flush.fresh).AtMark := by
      rw [Progress.AtMark, hkept]
      exact s.atMark_fresh
    exact h.open (ih hmarked (fun _ => s.atMark_fresh) s.flush.every_fresh) hkept hend.first
  | mark body ih =>
    exact h.mark (ih hmarked (fun _ => s.atMark_fresh) s.flush.every_fresh) (tokens_run call htokens body _)
  | wrap kind body ih =>
    rw [marked, Bool.and_eq_true] at hmarked
    have hend : (body.run call s).AtMark := by
      rw [Progress.AtMark, tokens_run call htokens]
      exact hs hmarked.1
    exact (ih hmarked.2 hs h).node hend.first

/-- No symbol of a grammar whose wraps reach back to marks builds a node that begins with trivia. -/
theorem everyStart_derive {g : σ → Phrase σ} {reaches : σ → Bool} (hg : ∀ X, (g X).marked reaches (reaches X) = true)
    (n : Nat) (X : σ) (hs : reaches X = true → s.AtMark) (h : s.Every StartsSignificant) :
    (derive g n X s).Every StartsSignificant := by
  induction n generalizing X s with
  | zero => exact h
  | succ n ih => exact (g X).everyStart_run (fun X s => tokens_derive g n X s) (fun Y _ => ih Y) (hg X) hs h

lemma marked_swift (X : Symbol) : (swift X).marked (fun Y => Y.role != .adds) (X.role != .adds) = true := by
  cases X with
  | inGroup opening closing depth => cases depth <;> rfl
  | _ => rfl

lemma everyStart_file (tokens : List Token) :
    (derive swift (openSymbols tokens) (.statements .fileEnd) ⟨[], tokens⟩).Every StartsSignificant :=
  everyStart_derive marked_swift _ _ (by simp [Symbol.role]) Tree.everyOf_nil

variable (h : (derive swift (openSymbols tokens) (.statements .fileEnd) ⟨[], tokens⟩).Every P) (hpath : path ≠ [])

include h hpath

lemma every_sub_of_parse {part : Tree} (hpart : (parseTokens tokens).sub? path = some part) :
    part.Every P ((parseTokens tokens).behind path) := by
  cases path with
  | nil => exact absurd rfl hpath
  | cons i path =>
    have hend : (derive swift (openSymbols tokens) (.statements .fileEnd) ⟨[], tokens⟩).flush.rest = [] :=
      pastGap_eq_nil (significant_rest_file tokens)
    have hevery := h.flush
    rw [Progress.Every, hend] at hevery
    rw [parseTokens, Tree.sub?_node_cons, Option.bind_eq_some_iff] at hpart
    obtain ⟨child, hchild, hsub⟩ := hpart
    rw [parseTokens, Tree.behind, hchild]
    simpa using (hevery.getElem? hchild).sub? hsub

lemma every_of_parse {kind : Kind} {children : List Tree}
    (hnode : (parseTokens tokens).sub? path = some (.node kind children)) :
    P kind children ((parseTokens tokens).behind path) := (Tree.every_node.1 (every_sub_of_parse h hpath hnode)).1

end Grammar

open Grammar

/-- A node other than the whole file that has tokens begins with a significant one, which is a token of the text, and
where this token starts the node starts. -/
theorem node_starts_significant (text : String) (path : Path) (hpath : path ≠ []) (kind : Kind) (children : List Tree)
    (hnode : (parse text).sub? path = some (.node kind children)) (hleaves : Tree.leavesOf children ≠ []) :
    ∃ token rest, Tree.leavesOf children = token :: rest ∧ token.isTrivia = false ∧
      ∃ front back, tokensOf text = front ++ token :: back ∧
        (parse text).startAt path = (Token.textOf front).utf8ByteSize := by
  obtain ⟨token, rest, hrow⟩ := List.exists_cons_of_ne_nil hleaves
  obtain ⟨front, hsplit, hstart⟩ := Tree.exists_startAt_eq hnode
  rw [parse, leaves_parseTokens, Tree.leaves_node, hrow, List.cons_append] at hsplit
  have hstarts := every_of_parse (everyStart_file (tokensOf text)) hpath hnode token (by simp [hrow])
  exact ⟨token, rest, hrow, hstarts, front, _, hsplit, hstart⟩

/-- A parameter behind a comment, in a file with a signature that has no tokens. -/
theorem node_starts_significant_parameter :
    let text := "// f\nfunc f\n/* g */ func g( /* first */ x: Int)"
    ∃ children, (parse text).sub? [3, 3, 0, 4] = some (.node .parameter children) ∧ Tree.leavesOf children ≠ [] ∧
      ∃ token rest, Tree.leavesOf children = token :: rest ∧ token.isTrivia = false ∧
        ∃ front back, tokensOf text = front ++ token :: back ∧
          (parse text).startAt [3, 3, 0, 4] = (Token.textOf front).utf8ByteSize := by
  intro text
  let children : List Tree :=
    [.leaf ⟨.ident, "x"⟩, .leaf ⟨.colon, ":"⟩, .leaf ⟨.whitespace, " "⟩, .node .simpleType [.leaf ⟨.ident, "Int"⟩]]
  have hnode : (parse text).sub? [3, 3, 0, 4] = some (.node .parameter children) := by decide +kernel
  have hleaves : Tree.leavesOf children ≠ [] := by decide
  exact ⟨children, hnode, hleaves, node_starts_significant text _ (by simp) _ children hnode hleaves⟩

end SwiftTidy

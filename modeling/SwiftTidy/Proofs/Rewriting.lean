import SwiftTidy.Proofs.Echoes

/-!
# A pass that puts comparisons in place of chains

A chain may hold other chains, in what it expects or in what its matcher compares with. These are dealt with first,
and the outer one is read again from the tree that they have left. So far nothing but comparisons has been put in,
hence the tree echoes the first one, and every chain is still found when its turn comes
(`Rules.rewritten_trail`).
-/

namespace SwiftTidy

namespace Tree

/-! ## Putting a tree in place of a part -/

/-- What can be seen of a tree without looking into its children. -/
def face (tree : Tree) : Option Token × Kind × Nat := (tree.token?, tree.kind, tree.children.length)

variable {path q : Path}

lemma map_face_sub?_replaceAt (tree new : Tree) (h : ¬ path <+: q) :
    ((tree.replaceAt path new).sub? q).map face = (tree.sub? q).map face := by
  induction path generalizing tree q with
  | nil => simp at h
  | cons i path ih =>
    cases tree with
    | leaf token => rfl
    | node kind children =>
      cases q with
      | nil => simp [replaceAt, face, token?, Tree.kind, Tree.children]
      | cons j q =>
        rw [replaceAt, sub?_node_cons, sub?_node_cons, List.getElem?_modify]
        cases children[j]? with
        | none => rfl
        | some child =>
          by_cases hij : i = j
          · subst hij
            simpa using ih child (by simpa [List.cons_prefix_cons] using h)
          · simp [hij]

/-- Parts beside the one that is replaced stay as they are. -/
lemma sub?_replaceAt_of_apart (tree new : Tree) (h : ¬ path <+: q) (h' : ¬ q <+: path) :
    (tree.replaceAt path new).sub? q = tree.sub? q := by
  induction path generalizing tree q with
  | nil => simp at h
  | cons i path ih =>
    cases tree with
    | leaf token => rfl
    | node kind children =>
      cases q with
      | nil => simp at h'
      | cons j q =>
        rw [replaceAt, sub?_node_cons, sub?_node_cons, List.getElem?_modify]
        cases children[j]? with
        | none => rfl
        | some child =>
          by_cases hij : i = j
          · subst hij
            simpa using ih child (by simpa [List.cons_prefix_cons] using h) (by simpa [List.cons_prefix_cons] using h')
          · simp [hij]

/-- Rows of the same length echo each other if their members do. -/
lemma echoOf_of_getElem? {owner : Kind} {row laters : List Tree} (hlength : laters.length = row.length)
    (h : ∀ (i : Nat) (child later : Tree), row[i]? = some child → laters[i]? = some later →
      child.EchoIn owner later) :
    EchoOf owner row laters := by
  induction row generalizing laters with
  | nil =>
    rw [EchoOf]
    simpa using hlength
  | cons child rest ih =>
    cases laters with
    | nil => simp at hlength
    | cons later more =>
      rw [EchoOf]
      refine Or.inl ⟨later, more, rfl, h 0 child later rfl rfl, ih (by simpa using hlength) ?_⟩
      intro i child later hchild hlater
      exact h (i + 1) child later (by simpa using hchild) (by simpa using hlater)

end Tree

namespace Rules

open Expectation SwiftTidy.Tree

/-- A comparison takes the place of the chain at a path. -/
def Rewrites (path : Path) (tree later : Tree) : Prop :=
  ∃ chain right, path ≠ [] ∧ chain? tree path = some chain ∧ chain.right? = some right ∧
    later = tree.replaceAt path (chain.comparison right)

/-- Comparisons take the places of chains at the given paths, the last one first. A chain is not dealt with after one
that it lies in. -/
inductive RewritesAlong (tree : Tree) : List Path → Tree → Prop where
  | refl : RewritesAlong tree [] tree
  | tail {done : List Path} {path : Path} {later last : Tree} : RewritesAlong tree done later →
      (∀ p ∈ done, ¬ p <+: path) → Rewrites path later last → RewritesAlong tree (path :: done) last

/-- A pass has put comparisons in place of the chains at the given paths of a tree. Of two paths that lie in each
other the outer one came later and counts. -/
structure Rewritten (tree : Tree) (done : List Path) (pass : Pass) : Prop where
  steps : RewritesAlong tree done pass.tree
  found : ∀ p ∈ done, ∃ chain, chain? tree p = some chain
  moved : ∀ q, (∀ p ∈ done, ¬ p <+: q) → pass.moved q = some q
  kept : ∀ q, (∀ p ∈ done, ¬ p <+: q) → (pass.tree.sub? q).map face = (tree.sub? q).map face
  compared : ∀ p ∈ done, (∀ q ∈ done, q <+: p → q = p) →
    ∃ chain right, Chain.right? chain = some right ∧ pass.tree.sub? p = some (chain.comparison right)

variable {chain : Chain} {path : Path} {site : Site} {tree : Tree}

section

variable (h : chain? tree path = some chain)

include h

lemma exists_part_of_chain? : ∃ part, tree.sub? path = some part := by
  obtain ⟨call, member, subject, argument, matching, links⟩ := chain?_eq_some_iff.1 h
  obtain ⟨part, hpart, -⟩ := Option.map_eq_some_iff.1 links.part
  exact ⟨part, hpart⟩

lemma callsMember_of_chain? {part : Tree} (hpart : tree.sub? path = some part) : part.callsMember = true := by
  obtain ⟨call, member, subject, argument, matching, links⟩ := chain?_eq_some_iff.1 h
  have hcall : call = ⟨path, part⟩ := by simpa [Tree.part?, hpart] using links.part.symm
  subst hcall
  have hhead : part.childExpressions.head? = some member.tree := by
    rw [Part.head?_childExpressions ⟨path, part⟩, links.member_eq]
    rfl
  have hkind : member.tree.kind = .memberExpr := links.member_kind
  obtain ⟨hnode, hcallKind⟩ := links.isCall
  have hcallKind : part.kind = .callExpr := hcallKind
  simp [callsMember, hhead, hkind, hnode, hcallKind]

lemma exists_right_of_chain? : ∃ right, chain.right? = some right := by
  obtain ⟨call, member, subject, argument, matching, links⟩ := chain?_eq_some_iff.1 h
  rw [Chain.right?]
  cases hliteral : chain.matcher.literal? with
  | some literal => exact ⟨_, rfl⟩
  | none =>
    have harity := links.matching_arguments
    rw [Matcher.arity, hliteral] at harity
    obtain ⟨first, hfirst⟩ := List.length_eq_one_iff.1 harity
    have hoperand := links.operand
    rw [operand?, hfirst] at hoperand
    cases hargument : chain.argument? with
    | none => simp [hargument] at hoperand
    | some operand => by_cases hp : needsParentheses operand = true <;> simp [hp]

end

namespace Rewritten

variable {tree : Tree} {done : List Path} {pass : Pass}

lemma init (tree : Tree) (corrections : List Correction) : Rewritten tree [] ⟨tree, some, corrections⟩ where
  steps := .refl
  found := by simp
  moved := by simp
  kept := by simp
  compared := by simp

variable {chain : Chain} {q : Path}

/-- What was put in for a child of a part that is still there. -/
lemma compared_child (h : Rewritten tree done pass) {i : Nat} {kind : Kind} {children : List Tree} {child later : Tree}
    (hnode : tree.sub? q = some (.node kind children)) (hchild : children[i]? = some child)
    (hlater : pass.tree.sub? (q ++ [i]) = some later) (hdone : q ++ [i] ∈ done) (houter : ∀ p ∈ done, ¬ p <+: q) :
    child.Compared kind later := by
  have hpart : tree.sub? (q ++ [i]) = some child := by
    rw [sub?_concat, hnode]
    exact hchild
  obtain ⟨chain, hchain⟩ := h.found _ hdone
  refine ⟨?_, callsMember_of_chain? hchain hpart, ?_⟩
  · obtain ⟨call, member, subject, argument, matching, links⟩ := chain?_eq_some_iff.1 hchain
    have hloose := links.loose
    rw [ownerKind?_concat, hnode] at hloose
    simpa [Tree.kind] using hloose
  · obtain ⟨chain', right, -, hsub⟩ := h.compared _ hdone (by
      intro p hp hwithin
      rcases List.prefix_concat_iff.1 hwithin with rfl | hwithin
      · rfl
      · exact absurd hwithin (houter p hp))
    rw [hlater, Option.some.injEq] at hsub
    subst hsub
    exact ⟨rfl, rfl⟩

/-- Outside of the comparisons the tree echoes the first one. -/
lemma echo (h : Rewritten tree done pass) (part : Tree) {q : Path} {later : Tree}
    (hpart : tree.sub? q = some part) (hlater : pass.tree.sub? q = some later)
    (houter : ∀ p ∈ done, ¬ p <+: q) : part.Echo later := by
  have hface := h.kept q houter
  rw [hpart, hlater, Option.map_some, Option.map_some, Option.some.injEq] at hface
  cases part with
  | leaf token =>
    rw [echo_leaf]
    cases later <;> simp_all [face, token?]
  | node kind children =>
    cases later with
    | leaf token => simp [face, token?] at hface
    | node kind' laters =>
      simp only [face, token?, Tree.kind, Tree.children, Prod.mk.injEq, true_and] at hface
      obtain ⟨rfl, hlength⟩ := hface
      refine echo_node.2 ⟨laters, rfl, echoOf_of_getElem? hlength ?_⟩
      intro i child later hchild hlaterChild
      have hsub : pass.tree.sub? (q ++ [i]) = some later := by
        rw [sub?_concat, hlater]
        exact hlaterChild
      by_cases hdone : q ++ [i] ∈ done
      · exact Or.inr (h.compared_child hpart hchild hsub hdone houter)
      · have hchildPart : tree.sub? (q ++ [i]) = some child := by
          rw [sub?_concat, hpart]
          exact hchild
        have hsize := sizeOf_lt_of_mem kind' (List.mem_of_getElem? hchild)
        refine Or.inl (h.echo child hchildPart hsub ?_)
        intro p hp hwithin
        rcases List.prefix_concat_iff.1 hwithin with rfl | hwithin
        · exact hdone hp
        · exact houter p hp hwithin
termination_by sizeOf part

variable (h : Rewritten tree done pass)

include h

lemma rel_sub? (houter : ∀ p ∈ done, ¬ p <+: q) : Option.Rel Tree.Echo (tree.sub? q) (pass.tree.sub? q) := by
  have hface := h.kept q houter
  cases hpart : tree.sub? q with
  | none =>
    rw [hpart, Option.map_none, Option.map_eq_none_iff] at hface
    rw [hface]
    exact .none
  | some part =>
    rw [hpart] at hface
    obtain ⟨later, hlater, -⟩ := Option.map_eq_some_iff.1 hface
    rw [hlater]
    exact .some (h.echo part hpart hlater houter)

lemma ownerKind?_eq (houter : ∀ p ∈ done, ¬ p <+: q) : pass.tree.ownerKind? q = tree.ownerKind? q := by
  rcases List.eq_nil_or_concat q with rfl | ⟨r, i, rfl⟩
  · rfl
  · rw [List.concat_eq_append, ownerKind?_concat, ownerKind?_concat]
    have hface := h.kept r (fun p hp hwithin => houter p hp (hwithin.trans (by simp)))
    have := congrArg (Option.map fun seen => seen.2.1) hface
    simpa [Function.comp_def, face] using this

lemma exists_chain (hshaped : tree.Shaped) (hchain : chain? tree q = some chain) (houter : ∀ p ∈ done, ¬ p <+: q) :
    ∃ later, chain? pass.tree q = some later := by
  obtain ⟨part, hpart⟩ := exists_part_of_chain? hchain
  rcases rel_cases (h.rel_sub? houter) with ⟨hnone, -⟩ | ⟨part', later, hpart', hlater, hecho⟩
  · simp [hpart] at hnone
  · have hrel := rel_chain? hpart' hlater hecho (h.ownerKind?_eq houter) (hshaped.sub? hpart')
    rw [hchain] at hrel
    rcases rel_cases hrel with ⟨hnone, -⟩ | ⟨_, later, -, hsome, -⟩
    · simp at hnone
    · exact ⟨later, hsome⟩

/-- Putting in one more comparison. -/
lemma step {path : Path} (hfound : ∃ chain, chain? tree path = some chain) (houter : ∀ p ∈ done, ¬ p <+: path)
    (hne : path ≠ []) (hchain : chain? pass.tree path = some chain) {right : Tree}
    (hright : chain.right? = some right) (corrections : List Correction) :
    Rewritten tree (path :: done) ⟨pass.tree.replaceAt path (chain.comparison right),
      fun q => (pass.moved q).bind (Edit.replace pass.tree path (chain.comparison right)).moved, corrections⟩ where
  steps := h.steps.tail houter ⟨chain, right, hne, hchain, hright, rfl⟩
  found p hp := by
    rcases List.mem_cons.1 hp with rfl | hp
    · exact hfound
    · exact h.found p hp
  moved q hq := by
    have hnot : ¬ path <+: q := hq path (by simp)
    have hmoved := h.moved q fun p hp => hq p (by simp [hp])
    simpa [hmoved, Edit.replace] using hnot
  kept q hq := by
    rw [map_face_sub?_replaceAt _ _ (hq path (by simp))]
    exact h.kept q fun p hp => hq p (by simp [hp])
  compared p hp hbelow := by
    by_cases hpp : path <+: p
    · obtain rfl := hbelow path (by simp) hpp
      obtain ⟨part, hpart⟩ := exists_part_of_chain? hchain
      exact ⟨chain, right, hright, sub?_replaceAt_self _ hpart⟩
    · have hp : p ∈ done := by
        rcases List.mem_cons.1 hp with rfl | hp
        · exact absurd (List.prefix_refl _) hpp
        · exact hp
      simp only [sub?_replaceAt_of_apart _ _ hpp (houter p hp)]
      exact h.compared p hp fun q hq hwithin => hbelow q (by simp [hq]) hwithin

end Rewritten

lemma find_expectation (h : expectation.check.find tree path = .ok (some site)) :
    site.path = path ∧ ∃ chain, chain? tree path = some chain := by
  simp only [expectation, Expectation.find, Except.ok.injEq, Option.map_eq_some_iff] at h
  obtain ⟨chain, hchain, rfl⟩ := h
  exact ⟨rfl, chain, hchain⟩

/-- For every site that is still there, a comparison takes the place of the chain. -/
lemma correctSite_expectation {lines : Lines} {pass : Pass} {right : Tree}
    (hmoved : pass.moved site.path = some site.path) (hne : site.path ≠ [])
    (hchain : chain? pass.tree site.path = some chain) (hright : chain.right? = some right) :
    expectation.correctSite lines pass site =
      ⟨pass.tree.replaceAt site.path (chain.comparison right),
        fun q => (pass.moved q).bind (Edit.replace pass.tree site.path (chain.comparison right)).moved,
        ⟨expectation.id, lines.position site.anchor⟩ :: pass.corrections⟩ := by
  have happly : (Change.replace site.path (chain.comparison right)).apply pass.tree =
      .ok (Edit.replace pass.tree site.path (chain.comparison right)) := by
    cases hpath : site.path with
    | nil => exact absurd hpath hne
    | cons i p => rfl
  simp [Rule.correctSite, hmoved, Rule.edit?, expectation, Expectation.fix, hchain, hright, Error.skip, happly,
    Edit.replace]

/-- A pass puts a comparison in place of every chain that it finds, one after the other. -/
theorem rewritten_trail (source : Source) (hshaped : source.tree.Shaped) (hroot : source.tree.kind ≠ .callExpr)
    (regions : List Region) :
    ∃ pass, Rewritten source.tree (expectation.trail source.tree regions) pass ∧
      pass.corrections =
        (expectation.order source.tree regions).reverse.map (expectation.correction source.lines) ∧
      expectation.correct source regions = ⟨Source.ofTree pass.tree, pass.corrections⟩ := by
  have hfind : expectation.FindsInPlace := fun h => (find_expectation h).1
  obtain ⟨hpass, hcorrections⟩ := Rule.correct_induction source.tree regions hfind source.lines
    (fun done pass => Rewritten source.tree (done.map Site.path) pass ∧
      pass.corrections = done.map (expectation.correction source.lines))
    ⟨Rewritten.init source.tree [], rfl⟩ (by
      rintro done pass site hsite houter ⟨h, hcorrections⟩
      have houter : ∀ p ∈ done.map Site.path, ¬ p <+: site.path := by simpa using houter
      obtain ⟨⟨path, hpath, hfound⟩, -⟩ := Rule.mem_sites.1 hsite
      obtain ⟨rfl, chain, hchain⟩ := find_expectation hfound
      have hne : site.path ≠ [] := by
        intro hnil
        obtain ⟨call, member, subject, argument, matching, links⟩ := chain?_eq_some_iff.1 hchain
        have hcall := links.part
        rw [hnil] at hcall
        obtain rfl : ⟨[], source.tree⟩ = call := by simpa [Tree.part?] using hcall
        exact hroot links.isCall.2
      obtain ⟨later, hlater⟩ := h.exists_chain hshaped hchain houter
      obtain ⟨right, hright⟩ := exists_right_of_chain? hlater
      rw [correctSite_expectation (h.moved _ houter) hne hlater hright, List.map_cons, List.map_cons, hcorrections]
      exact ⟨h.step ⟨chain, hchain⟩ houter hne hlater hright _, rfl⟩)
  exact ⟨_, hpass, hcorrections, rfl⟩

end Rules

end SwiftTidy

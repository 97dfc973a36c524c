import SwiftTidy.Proofs.NodeStarts
import SwiftTidy.Proofs.Signatures

/-!
# What is read stays

When a part of a file has been read, it is among the trees that are built, and whatever is read
later, it stays there. So a reader of two files that have the same tokens up to the end of the part,
and look the same from there, finds it in both (`exists_of_parseTokens`), even if everything behind it
is read in another way.
-/

namespace SwiftTidy

namespace Tree

variable {P Q : Kind → List Tree → List Token → Prop}

mutual

lemma every_of_sub? {tree : Tree} {r : List Token}
    (h : ∀ path kind children, tree.sub? path = some (.node kind children) →
      P kind children (tree.behind path ++ r)) : tree.Every P r := by
  cases tree with
  | leaf token => exact every_leaf token
  | node kind children =>
    refine every_node.2 ⟨h [] kind children (sub?_nil _),
      everyOf_of_sub? fun i child hchild path kind' children' hsub => ?_⟩
    have hP := h (i :: path) kind' children' (by rw [sub?_node_cons, hchild]; exact hsub)
    simpa [behind, hchild] using hP

lemma everyOf_of_sub? {trees : List Tree} {r : List Token}
    (h : ∀ i tree, trees[i]? = some tree → ∀ path kind children,
      tree.sub? path = some (.node kind children) →
        P kind children (tree.behind path ++ (leavesOf (trees.drop (i + 1)) ++ r))) :
    EveryOf P trees r := by
  cases trees with
  | nil => exact everyOf_nil
  | cons tree rest =>
    refine everyOf_cons.2 ⟨every_of_sub? (h 0 tree rfl), everyOf_of_sub? fun i child hchild => ?_⟩
    exact h (i + 1) child hchild

end

mutual

lemma Every.exchange {tree : Tree} {r r' : List Token} (h : tree.Every Q r')
    (hQ : ∀ kind children x, Q kind children (x ++ r') → P kind children (x ++ r)) :
    tree.Every P r := by
  cases tree with
  | leaf token => exact every_leaf token
  | node kind children =>
    obtain ⟨hnode, hchildren⟩ := every_node.1 h
    exact every_node.2 ⟨hQ kind children [] hnode, hchildren.exchange hQ⟩

lemma EveryOf.exchange {trees : List Tree} {r r' : List Token} (h : EveryOf Q trees r')
    (hQ : ∀ kind children x, Q kind children (x ++ r') → P kind children (x ++ r)) :
    EveryOf P trees r := by
  cases trees with
  | nil => exact everyOf_nil
  | cons tree rest =>
    obtain ⟨htree, hrest⟩ := everyOf_cons.1 h
    refine everyOf_cons.2 ⟨htree.exchange fun kind children x => ?_, hrest.exchange hQ⟩
    rw [← List.append_assoc, ← List.append_assoc]
    exact hQ kind children (x ++ leavesOf rest)

end

end Tree

namespace Grammar

open Phrase Progress

variable {σ : Type} {g : σ → Phrase σ} {P Q : Kind → List Tree → List Token → Prop}
  {s t u s' t' u' : Progress} {w a b : List Token} {kind : Kind}

/-! ## Nodes that are built -/

lemma Progress.every_of_append (built : List Tree) {r : List Token}
    (htokens : Tree.leavesOf built ++ r = s.rest) (h : Every P ⟨s.built ++ built, r⟩) :
    s.Every P := by
  have hfront := (Tree.everyOf_append.1 h).1
  rwa [htokens] at hfront

lemma Progress.every_of_flush (h : s.flush.Every P) : s.Every P :=
  every_of_append _ (by rw [Tree.leavesOf_map_leaf]; exact gap_append_pastGap _) h

lemma Progress.every_of_shift (h : s.shift.Every P) : s.Every P := by
  unfold Progress.shift at h
  split at h
  · exact h
  · next token rest hrest => exact every_of_append [.leaf token] (by rw [hrest]; rfl) h

lemma Progress.every_of_node (h : Every P ⟨[.node kind t.built], t.rest⟩) : t.Every P :=
  (Tree.every_node.1 (Tree.everyOf_cons.1 h).1).2

namespace Phrase.Runs

variable {phrase : Phrase σ}

lemma every_of_every (h : Runs g phrase s t) (ht : t.Every P) : s.Every P := by
  induction h with
  | skip => exact ht
  | take s => exact every_of_flush (every_of_shift ht)
  | call _ ih | yes _ _ ih | no _ _ ih => exact ih ht
  | seq _ _ ih₁ ih₂ => exact ih₁ (ih₂ ht)
  | node hbody | mark hbody =>
    exact every_of_flush (every_of_append _ (by simpa [Progress.tokens] using hbody.tokens_eq) ht)
  | wrap _ ih => exact ih (every_of_node ht)

/-- What holds of all nodes with few tokens behind them holds of those that are built late. -/
lemma every_of_short {n : Nat} (h : Runs g phrase s t)
    (hP : ∀ kind children r, r.length < n → P kind children r) (hn : s.rest.length < n)
    (hs : s.Every P) : t.Every P := by
  induction h with
  | skip => exact hs
  | take s => exact hs.flush.shift
  | call _ ih | yes _ _ ih | no _ _ ih => exact ih hn hs
  | seq h₁ _ ih₁ ih₂ => exact ih₂ (h₁.rest_suffix.length_le.trans_lt hn) (ih₁ hn hs)
  | node hbody ih =>
    have hlt := (pastGap_suffix _).length_le.trans_lt hn
    exact hs.open (ih hlt (every_fresh _)) hbody.tokens_eq
      (hP _ _ _ (hbody.rest_suffix.length_le.trans_lt hlt))
  | mark hbody ih =>
    exact hs.mark (ih ((pastGap_suffix _).length_le.trans_lt hn) (every_fresh _)) hbody.tokens_eq
  | wrap hbody ih => exact (ih hn hs).node (hP _ _ _ (hbody.rest_suffix.length_le.trans_lt hn))

end Phrase.Runs

lemma Progress.flush_flush (s : Progress) : s.flush.flush = s.flush :=
  flush_of_gap (gap_pastGap _) _

/-! ## Two readers -/

/-- Two readers are at the same place before the tokens in which their files differ. -/
def InStep (w a b : List Token) (s s' : Progress) : Prop :=
  ∃ v, v <:+ w ∧ s = ⟨s.built, v ++ a⟩ ∧ s' = ⟨s.built, v ++ b⟩

/-- The first reader is past the place where the files begin to differ. What the second one has not
built by then, the first one has not. -/
structure Past (P Q : Kind → List Tree → List Token → Prop) (a : List Token) (s s' : Progress) :
    Prop where
  short : s.rest.length < a.length
  every : s'.Every Q → s.Every P

section

variable (hP : ∀ kind children r, r.length < a.length → P kind children r)
  (hQ : ∀ kind children x, Q kind children (x ++ b) → P kind children (x ++ a))

include hP in
/-- Whatever two readers do then. -/
lemma Past.runs {phrase phrase' : Phrase σ} (hs : Past P Q a s s') (h : Runs g phrase s t)
    (h' : Runs g phrase' s' t') : Past P Q a t t' :=
  ⟨h.rest_suffix.length_le.trans_lt hs.short,
    fun ht' => h.every_of_short hP hs.short (hs.every (h'.every_of_every ht'))⟩

include hQ

lemma InStep.every (h : InStep w a b s s') (hs' : s'.Every Q) : s.Every P := by
  obtain ⟨v, -, hs, rfl⟩ := h
  rw [hs]
  refine Tree.EveryOf.exchange hs' fun kind children x => ?_
  rw [← List.append_assoc, ← List.append_assoc]
  exact hQ kind children (x ++ v)

lemma InStep.flush (h : InStep w a b s s') (hgap : gap s.rest = gap s'.rest) :
    InStep w a b s.flush s'.flush ∨ Past P Q a s.flush s'.flush := by
  obtain ⟨v, hv, hs, hs'⟩ := h
  have hrest : s.rest = v ++ a := congrArg rest hs
  have hrest' : s'.rest = v ++ b := congrArg rest hs'
  by_cases hle : (gap s.rest).length ≤ v.length
  · -- the trivia comes before the place
    obtain ⟨v', hv'⟩ : gap s.rest <+: v := List.prefix_of_prefix_length_le
      ⟨_, gap_append_pastGap _⟩ (hrest ▸ List.prefix_append v a) hle
    have hpast : pastGap s.rest = v' ++ a := by
      rw [← List.append_right_inj (gap s.rest)]
      rw [gap_append_pastGap, ← List.append_assoc, hv', hrest]
    have hpast' : pastGap s'.rest = v' ++ b := by
      rw [← List.append_right_inj (gap s'.rest)]
      rw [gap_append_pastGap, ← hgap, ← List.append_assoc, hv', hrest']
    refine .inl ⟨v', (hv' ▸ List.suffix_append _ _).trans hv, ?_, ?_⟩
    · rw [Progress.flush, hpast]
    · rw [Progress.flush, Progress.flush, hpast', ← hgap, hs']
  · refine .inr ⟨?_, fun h' => (InStep.every hQ ⟨v, hv, hs, hs'⟩ (every_of_flush h')).flush⟩
    have hlength := congrArg List.length ((gap_append_pastGap s.rest).trans hrest)
    simp only [List.length_append] at hlength
    change (pastGap s.rest).length < a.length
    omega

lemma InStep.shift (h : InStep w a b s s') (hnil : a = [] → b = []) :
    InStep w a b s.shift s'.shift ∨ Past P Q a s.shift s'.shift := by
  have hevery := InStep.every hQ h
  obtain ⟨v, hv, hs, hs'⟩ := h
  cases v with
  | cons token v =>
    refine .inl ⟨v, (List.suffix_cons _ _).trans hv, ?_, ?_⟩
    · rw [hs]
      rfl
    · rw [hs', hs]
      rfl
  | nil =>
    cases a with
    | nil =>
      obtain rfl := hnil rfl
      refine .inl ⟨[], hv, ?_, ?_⟩
      · rw [hs]
        rfl
      · rw [hs', hs]
        rfl
    | cons token a =>
      refine .inr ⟨?_, fun h' => (hevery (every_of_shift h')).shift⟩
      rw [hs]
      exact Nat.lt_succ_self _

lemma InStep.append (hs : InStep w a b s s') (ht : InStep w a b t t' ∨ Past P Q a t t')
    (htokens : t.tokens = s.rest) (htokens' : t'.tokens = s'.rest) :
    InStep w a b ⟨s.built ++ t.built, t.rest⟩ ⟨s'.built ++ t'.built, t'.rest⟩ ∨
      Past P Q a ⟨s.built ++ t.built, t.rest⟩ ⟨s'.built ++ t'.built, t'.rest⟩ := by
  refine ht.imp (fun ht => ?_) fun ht => ⟨ht.short, fun h' => ?_⟩
  · obtain ⟨_, _, _, hs'⟩ := hs
    obtain ⟨v, hv, ht, ht'⟩ := ht
    exact ⟨v, hv, by rw [ht], by rw [ht', hs']⟩
  · exact (hs.every hQ (every_of_append _ htokens' h')).append
      (ht.every (Tree.everyOf_append.1 h').2) htokens

omit hQ

include hP in
/-- What both have built is put in a node. -/
lemma node_of_inStep (kind : Kind) (ht : InStep w a b t t' ∨ Past P Q a t t') :
    InStep w a b ⟨[.node kind t.built], t.rest⟩ ⟨[.node kind t'.built], t'.rest⟩ ∨
      Past P Q a ⟨[.node kind t.built], t.rest⟩ ⟨[.node kind t'.built], t'.rest⟩ := by
  refine ht.imp (fun ht => ?_) fun ht =>
    ⟨ht.short, fun h' => (ht.every (every_of_node h')).node (hP _ _ _ ht.short)⟩
  obtain ⟨v, hv, ht, ht'⟩ := ht
  exact ⟨v, hv, by rw [ht], by rw [ht']⟩

include hP hQ in
/-- Two readers of the same phrase stay in step, or come past the place together. -/
theorem InStep.runs {phrase : Phrase Symbol}
    (hview : ∀ v, v <:+ w → SameView (v ++ a) (v ++ b) ∧ SameView (v ++ b) (v ++ a))
    (h : Runs swift phrase s t) (hheeds : phrase.Heeds) (hs : InStep w a b s s')
    (h' : Runs swift phrase s' t') : InStep w a b t t' ∨ Past P Q a t t' := by
  have hsame {s s' : Progress} (hs : InStep w a b s s') :
      SameView s.rest s'.rest ∧ SameView s'.rest s.rest := by
    obtain ⟨v, hv, hs, rfl⟩ := hs
    rw [hs]
    exact hview v hv
  have hflush {s s' : Progress} (hs : InStep w a b s s') :=
    hs.flush hQ (hsame hs).1.gap_eq
  have hfresh {s s' : Progress} (hs : InStep w a b s s') : InStep w a b s.fresh s'.fresh := by
    obtain ⟨v, hv, hs, hs'⟩ := hs
    exact ⟨v, hv, by rw [hs]; rfl, by rw [hs']; rfl⟩
  have hbehind {s t : Progress} {body : Phrase Symbol} (h : Runs swift body s.flush.fresh t) :
      t.tokens = s.flush.rest := h.tokens_eq.trans s.flush.tokens_fresh
  induction h generalizing s' t' with
  | skip =>
    obtain rfl := runs_skip_iff.1 h'
    exact .inl hs
  | take s =>
    obtain rfl := runs_take_iff.1 h'
    obtain hs | hs := hflush hs
    · exact hs.shift hQ fun hnil => by
        have hempty := (hview [] List.nil_suffix).1
        rw [List.nil_append, List.nil_append, hnil] at hempty
        exact hempty.eq_nil
    · refine .inr ⟨lt_of_le_of_lt ?_ hs.short, fun h' => (hs.every (every_of_shift h')).shift⟩
      rw [rest_shift]
      exact (List.tail_suffix _).length_le
  | call _ ih => exact ih (heeds_swift _) hs (runs_call_iff.1 h')
  | seq h₁ h₂ ih₁ ih₂ =>
    obtain ⟨u', h₁', h₂'⟩ := runs_seq_iff.1 h'
    obtain hu | hu := ih₁ hheeds.1 hs h₁'
    · exact ih₂ hheeds.2 hu h₂'
    · exact .inr (hu.runs hP h₂ h₂')
  | yes htest h ih =>
    obtain ⟨-, h'⟩ | ⟨htest', -⟩ := runs_choose_iff.1 h'
    · exact ih hheeds.2.1 hs h'
    · rw [(hsame hs).2.fails hheeds.1 htest'] at htest
      cases htest
  | no htest h ih =>
    obtain ⟨htest', -⟩ | ⟨-, h'⟩ := runs_choose_iff.1 h'
    · rw [(hsame hs).1.fails hheeds.1 htest] at htest'
      cases htest'
    · exact ih hheeds.2.2 hs h'
  | @node kind body s t hbody ih =>
    obtain ⟨u', hbody', rfl⟩ := runs_node_iff.1 h'
    obtain hfront | hpast := hflush hs
    · exact hfront.append hQ (node_of_inStep hP kind (ih hheeds.2 (hfresh hfront) hbody'))
        (by simpa [Progress.tokens] using hbehind hbody)
        (by simpa [Progress.tokens] using hbehind hbody')
    · have h : Runs swift (.node kind body) s.flush _ := .node (by rwa [s.flush_flush])
      have h' : Runs swift (.node kind body) s'.flush _ := .node (by rwa [s'.flush_flush])
      rw [flush_flush] at h h'
      exact .inr (hpast.runs hP h h')
  | @mark body s t hbody ih =>
    obtain ⟨u', hbody', rfl⟩ := runs_mark_iff.1 h'
    obtain hfront | hpast := hflush hs
    · exact hfront.append hQ (ih hheeds (hfresh hfront) hbody') (hbehind hbody) (hbehind hbody')
    · have h := Runs.mark (s := s.flush) (by rwa [s.flush_flush])
      have h' := Runs.mark (s := s'.flush) (by rwa [s'.flush_flush])
      rw [flush_flush] at h h'
      exact .inr (hpast.runs hP h h')
  | wrap hbody ih =>
    obtain ⟨u', hbody', rfl⟩ := runs_wrap_iff.1 h'
    exact node_of_inStep hP _ (ih hheeds.2 hs hbody')

end

end Grammar

open Grammar Phrase

/-! ## Files -/

/-- A part of a file that has been read is found by a reader of another file that has the same tokens
up to its end, and looks the same from there. -/
theorem exists_of_parseTokens (kind : Kind) {w a b : List Token} {children : List Tree} {place : Path}
    (hview : ∀ v, v <:+ w → SameView (v ++ a) (v ++ b) ∧ SameView (v ++ b) (v ++ a))
    (hkind : kind ≠ .sourceFile)
    (hsub : (parseTokens (w ++ a)).sub? place = some (.node kind children))
    (hbehind : (parseTokens (w ++ a)).behind place = a) :
    ∃ place', (parseTokens (w ++ b)).sub? place' = some (.node kind children) ∧
      (parseTokens (w ++ b)).behind place' = b := by
  by_contra hnone
  let P (behind : List Token) (kind' : Kind) (children' : List Tree) (r : List Token) : Prop :=
    ¬ (Tree.node kind' children' = .node kind children ∧ r = behind)
  obtain ⟨t, ht, hend⟩ := runs_parseTokens (w ++ a)
  obtain ⟨t', ht', hend'⟩ := runs_parseTokens (w ++ b)
  have hlater : t'.Every (P b) := by
    refine Progress.every_of_flush ?_
    rw [hend']
    have hroot : (parseTokens (w ++ b)).Every (P b) [] := Tree.every_of_sub? fun place' kind' children' hsub' => by
      rw [List.append_nil]
      rintro ⟨heq, hbehind'⟩
      exact hnone ⟨place', heq ▸ hsub', hbehind'⟩
    exact (Tree.every_node.1 hroot).2
  have hexchange (kind' : Kind) (children' : List Tree) (x : List Token)
      (h : P b kind' children' (x ++ b)) : P a kind' children' (x ++ a) := by
    rintro ⟨heq, hnil⟩
    exact h ⟨heq, by rw [List.append_left_eq_self.1 hnil, List.nil_append]⟩
  have hshort (kind' : Kind) (children' : List Tree) (r : List Token) (h : r.length < a.length) :
      P a kind' children' r := fun heq => absurd (congrArg List.length heq.2) h.ne
  have hfirst : t.Every (P a) := by
    obtain hstep | hpast := InStep.runs hshort hexchange hview ht trivial
      ⟨w, List.suffix_rfl, rfl, rfl⟩ ht'
    · exact hstep.every hexchange hlater
    · exact hpast.every hlater
  have hchildren := hfirst.flush
  rw [hend] at hchildren
  have htree : (parseTokens (w ++ a)).Every (P a) [] :=
    Tree.every_node.2 ⟨fun heq => hkind (Tree.node.inj heq.1).1.symm, hchildren⟩
  refine (Tree.every_node.1 (htree.sub? hsub)).1 ⟨rfl, ?_⟩
  rw [List.append_nil, hbehind]

end SwiftTidy

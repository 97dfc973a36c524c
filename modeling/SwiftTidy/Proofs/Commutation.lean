import SwiftTidy.Proofs.ExpressionSweeps

/-!
# The rules commute

A pass that takes out return clauses and a pass that puts in comparisons may be made in either order, as long as all
closures are closed. Every rewrite of a chain is a rewrite after the clauses are gone, at the place where the chain is
then (`Rules.Rewrites.sweep`), and so is a row of them (`Rules.RewritesAlong.sweep`). The chains that are found in the
swept tree are those of the first tree (`Rules.trail_sweep`). Hence both orders come to the same tree.
-/

namespace SwiftTidy

namespace Tree

/-- Every closure of a tree ends with its brace. -/
def ClosesClosures (tree : Tree) : Prop :=
  ∀ p children, tree.sub? p = some (.node .closureExpr children) →
    ∃ front token, children = front ++ [.leaf token] ∧ token.kind = .rbrace

lemma isClosed_closure_iff {children : List Tree} : (Tree.node .closureExpr children).isClosed = true ↔
    ∃ front token, children = front ++ [.leaf token] ∧ token.kind = .rbrace := by
  simp only [isClosed, bne_self_eq_false, Bool.false_or, Option.any_eq_true, Bool.and_eq_true, Bool.not_eq_true',
    beq_iff_eq, List.getLast?_eq_some_iff]
  constructor
  · rintro ⟨last, ⟨front, rfl⟩, hleaf, hkind⟩
    cases last with
    | leaf token => exact ⟨front, token, rfl, hkind⟩
    | node kind children => simp [isNode] at hleaf
  · rintro ⟨front, token, rfl, hkind⟩
    exact ⟨.leaf token, ⟨front, rfl⟩, rfl, hkind⟩

lemma ClosesClosures.isClosed {tree : Tree} (h : tree.ClosesClosures) {p : Path} {part : Tree}
    (hpart : tree.sub? p = some part) : part.isClosed = true := by
  cases part with
  | leaf token => rfl
  | node kind children =>
    by_cases hkind : kind = .closureExpr
    · subst hkind
      exact isClosed_closure_iff.2 (h p children hpart)
    · simp [Tree.isClosed, hkind]

lemma closesClosures_iff {tree : Tree} :
    tree.ClosesClosures ↔ ∀ p ∈ tree.nodePaths, (tree.sub? p).all isClosed = true := by
  constructor
  · intro h p _
    cases hpart : tree.sub? p with
    | none => rfl
    | some part => exact h.isClosed hpart
  · intro h p children hpart
    have hclosed := h p (mem_nodePaths.2 ⟨_, _, hpart⟩)
    rw [hpart] at hclosed
    exact isClosed_closure_iff.1 hclosed

instance (tree : Tree) : Decidable tree.ClosesClosures := decidable_of_iff' _ closesClosures_iff

end Tree

namespace Rules

open SwiftTidy.Tree Expectation

variable {closures : Bool} {tokens : List Token} {tree later : Tree} {done : List Path}

/-- Rewrites in a row are rewrites after a sweep as well, where the chains are then. -/
theorem RewritesAlong.sweep (closures : Bool) (hsteps : RewritesAlong tree done later) (h : tree.Sturdy)
    (hdescends : Descends tokens tree) :
    later.Sturdy ∧
      RewritesAlong (Rules.sweep closures tree).tree (done.filterMap (Rules.sweep closures tree).moved)
        (Rules.sweep closures later).tree ∧
      ∀ s, (∀ p ∈ done, ¬ p <+: s) → (Rules.sweep closures later).moved s = (Rules.sweep closures tree).moved s := by
  induction hsteps with
  | refl => exact ⟨h, .refl, fun _ _ => rfl⟩
  | @tail done path middle last hsteps houter hrewrites ih =>
    obtain ⟨hsturdy, hswept, hsame⟩ := ih
    have hmiddle := hdescends.rewrites hsteps
    obtain ⟨hlast, q, hmoved, hrewrites', hsame'⟩ := hrewrites.sweep closures hsturdy hmiddle.shaped
      (by rw [hmiddle.root]; decide)
    rw [hsame path houter] at hmoved
    refine ⟨hlast, ?_, fun s hs => ?_⟩
    · rw [List.filterMap_cons_some hmoved]
      refine hswept.tail (fun p hp hwithin => ?_) hrewrites'
      obtain ⟨p', hp', hmoved'⟩ := List.mem_filterMap.1 hp
      have hrelocation := (cleared_sweep closures h hdescends.shaped).relocation
      exact houter p' hp' ((hrelocation.prefix_iff hmoved' hmoved).1 hwithin)
    · rw [hsame' s (hs path List.mem_cons_self), hsame s fun p hp => hs p (List.mem_cons_of_mem _ hp)]

lemma RewritesAlong.unique {other : Tree} (h : RewritesAlong tree done later) (h' : RewritesAlong tree done other) :
    later = other := by
  induction h generalizing other with
  | refl =>
    cases h'
    rfl
  | tail hsteps _ hrewrites ih =>
    cases h' with
    | tail hsteps' _ hrewrites' =>
      obtain rfl := ih hsteps'
      obtain ⟨chain, right, -, hchain, hright, rfl⟩ := hrewrites
      obtain ⟨chain', right', -, hchain', hright', rfl⟩ := hrewrites'
      obtain rfl := Option.some.inj (hchain.symm.trans hchain')
      obtain rfl := Option.some.inj (hright.symm.trans hright')
      rfl

lemma filter_filterMap_of {α β : Type} {f : α → Option β} {p : β → Bool} {q : α → Bool} {row : List α}
    (h : ∀ a ∈ row, ∀ b, f a = some b → p b = q a) : (row.filterMap f).filter p = (row.filter q).filterMap f := by
  induction row with
  | nil => rfl
  | cons a row ih =>
    have hrow := ih fun a ha => h a (List.mem_cons_of_mem _ ha)
    cases hb : f a with
    | none =>
      rw [List.filterMap_cons_none hb, hrow, List.filter_cons]
      split
      · rw [List.filterMap_cons_none hb]
      · rfl
    | some b =>
      rw [List.filterMap_cons_some hb, List.filter_cons, List.filter_cons, h a List.mem_cons_self b hb, hrow]
      split
      · rw [List.filterMap_cons_some hb]
      · rfl

variable {source : Source} {text : String}

/-- The chains of a swept tree are those of the tree before, where they are then. -/
lemma trail_sweep (closures : Bool) (h : tree.Sturdy) (hdescends : Descends (tokensOf text) tree) :
    expectation.trail (sweep closures tree).tree [] = (expectation.trail tree []).filterMap (sweep closures tree).moved := by
  have hrule : expectation.IsBuiltin := .inl rfl
  have hcleared := cleared_sweep closures h hdescends.shaped
  have hdescends' : Descends (tokensOf text) (sweep closures tree).tree := hdescends.clear hcleared
  have hnodes : (sweep closures tree).tree.nodePaths = _ := hcleared.relocation.nodes
  rw [Rule.trail_eq hdescends' hrule, Rule.trail_eq hdescends hrule, hnodes]
  refine filter_filterMap_of fun p hp q hmoved => decide_eq_decide.2 ?_
  obtain ⟨kind, children, hpart⟩ := mem_nodePaths.1 hp
  obtain ⟨part, hpart', htrims, howner⟩ := hcleared.trimming.part hmoved hpart
  exact hasSite_of_echo hrule hdescends.shaped hdescends'.shaped hpart hpart' htrims.echo howner

lemma exists_rewritesAlong (hdescends : Descends tokens source.tree) :
    ∃ later, RewritesAlong source.tree (expectation.trail source.tree []) later ∧
      (expectation.correct source []).source = .ofTree later := by
  obtain ⟨pass, hpass, -, hcorrect⟩ := rewritten_trail source hdescends.shaped (by rw [hdescends.root]; simp) []
  exact ⟨pass.tree, hpass.steps, by rw [hcorrect]⟩

/-- The order of the passes does not matter. -/
lemma source_correct_comm (hdescends : Descends (tokensOf text) source.tree) (h : source.tree.Sturdy) (closures : Bool) :
    (expectation.correct ((voidReturn closures).correct source []).source []).source =
      ((voidReturn closures).correct (expectation.correct source []).source []).source := by
  have hdescends' : Descends (tokensOf text) (Source.ofTree (sweep closures source.tree).tree).tree :=
    hdescends.clear (cleared_sweep closures h hdescends.shaped)
  obtain ⟨later, hsteps, hcorrect⟩ := exists_rewritesAlong hdescends
  obtain ⟨last, hsteps', hcorrect'⟩ := exists_rewritesAlong hdescends'
  obtain ⟨hsturdy, hswept, -⟩ := hsteps.sweep closures h hdescends
  rw [← trail_sweep closures h hdescends] at hswept
  rw [correct_voidReturn closures source hdescends h, hcorrect', hcorrect,
    correct_voidReturn closures (.ofTree later) (hdescends.rewrites hsteps) hsturdy]
  exact congrArg Source.ofTree (hsteps'.unique hswept)

/-- Return clauses may be taken out before chains are rewritten or afterwards: if all closures of a text are closed, the
corrected text is the same. -/
theorem text_correct_comm (closures : Bool) (text : String) (h : (parse text).ClosesClosures) :
    (expectation.correct ((voidReturn closures).correct (.ofText text) []).source []).source.text =
      ((voidReturn closures).correct (expectation.correct (.ofText text) []).source []).source.text :=
  congrArg Source.text (source_correct_comm (descends_parse text) (sturdy_parse fun _ _ => h.isClosed) closures)

/-- Clauses around a chain and within its operands. -/
theorem text_correct_comm_nested :
    let text := "func f() -> Void { expect(run { (a) -> () in a }).to(equal(b)) }\n"
    (parse text).ClosesClosures ∧ (clauses true (parse text)).length = 2 ∧
      ((parse text).nodePaths.filter (expectation.HasSite (parse text) ·)).length = 1 ∧
      (expectation.correct ((voidReturn true).correct (.ofText text) []).source []).source.text =
        ((voidReturn true).correct (expectation.correct (.ofText text) []).source []).source.text := by
  intro text
  have hclosed : (parse text).ClosesClosures := by decide +kernel
  exact ⟨hclosed, by decide +kernel, by decide +kernel, text_correct_comm true text hclosed⟩

end Rules

end SwiftTidy

import SwiftTidy.Proofs.Partings
import SwiftTidy.Proofs.Sweeps

/-!
# Taking out all clauses

A pass takes out the return clauses that say nothing, the last one first (`Rules.correct_voidReturn`). It does not
matter whether an expression is exchanged before or afterwards: what the pass makes of the tree around it is the same,
and what it makes of the expression is told by the expression alone (`Rules.sweep_replaceAt`).
-/

namespace SwiftTidy

namespace Edit

namespace Lined

variable {tree : Tree} {front back : List Path}

lemma left (h : Lined tree (front ++ back)) : Lined tree front :=
  ⟨(List.pairwise_append.1 h.sorted).1, fun p hp => h.held p (List.mem_append_left _ hp)⟩

lemma right (h : Lined tree (front ++ back)) : Lined tree back :=
  ⟨(List.pairwise_append.1 h.sorted).2.1, fun p hp => h.held p (List.mem_append_right _ hp)⟩

end Lined

lemma cleared_clear {tree : Tree} {paths : List Path} (h : Lined tree paths) (hspare : ∀ p ∈ paths, tree.SpareAt p) :
    Cleared tree paths ⟨(clear tree paths).tree, (clear tree paths).moved, []⟩ := by
  induction paths with
  | nil => exact Cleared.init tree []
  | cons path rest ih =>
    have hpath := hspare path List.mem_cons_self
    obtain ⟨part, hpart, hmoved⟩ := h.exists_part
    exact (ih h.tail fun p hp => hspare p (List.mem_cons_of_mem _ hp)).step hpath hmoved
      (clears_remove hpath.ne_nil hpart) []

end Edit

namespace Rules

open SwiftTidy.Tree Edit

variable {closures : Bool} {tree : Tree} {p : Path}

/-- The places of the clauses that say nothing, in the order of a walk. -/
def clauses (closures : Bool) (tree : Tree) : List Path := tree.nodePaths.filter ((voidReturn closures).HasSite tree ·)

/-- Takes out all clauses that say nothing, the last one first. -/
def sweep (closures : Bool) (tree : Tree) : Edit := clear tree (clauses closures tree)

lemma hasSite_of_mem_clauses (h : p ∈ clauses closures tree) : (voidReturn closures).HasSite tree p := by
  simpa using (List.mem_filter.1 h).2

lemma spareAt_of_mem_clauses (h : p ∈ clauses closures tree) : tree.SpareAt p := by
  obtain ⟨site, hsite⟩ := Rule.hasSite_iff.1 (hasSite_of_mem_clauses h)
  exact (find_voidReturn hsite).2

lemma nil_notMem_clauses : [] ∉ clauses closures tree := fun h => (spareAt_of_mem_clauses h).ne_nil rfl

/-- The clauses stand one after the other. -/
lemma lined_clauses (closures : Bool) (h : tree.Sturdy) (hshaped : tree.Shaped) : Lined tree (clauses closures tree) := by
  refine ⟨?_, fun p hp => ?_⟩
  · refine ((pairwise_nodePaths tree).filter _).imp_of_mem fun {p q} hp hq hbefore => ?_
    rcases hbefore with hprecedes | ⟨hwithin, hne⟩
    · exact hprecedes
    · exact absurd (h.eq_of_isPrefix hshaped (hasSite_of_mem_clauses hp) (hasSite_of_mem_clauses hq) hwithin) hne
  · obtain ⟨kind, children, first, rest, hpart, hrow, hfirst⟩ :=
      (hasSite_of_mem_clauses hp).exists_first (.inr ⟨closures, rfl⟩) hshaped
    have hmem : first ∈ (Tree.node kind children).placedTokens := by simp [hrow]
    have hwhole : tree.sub? (p ++ first.path) = some (.leaf first.token) :=
      (sub?_append_some hpart _).trans (sub?_of_mem_placedTokens hmem)
    exact ⟨_, mem_placedTokens_of_sub? hwhole, hfirst, by simp [Placed.path]⟩

lemma cleared_sweep (closures : Bool) (h : tree.Sturdy) (hshaped : tree.Shaped) :
    Cleared tree (clauses closures tree) ⟨(sweep closures tree).tree, (sweep closures tree).moved, []⟩ :=
  cleared_clear (lined_clauses closures h hshaped) fun _ => spareAt_of_mem_clauses

/-! ## The pass -/

/-- Sites in a row are corrected by taking out their clauses. -/
lemma foldl_correctSite (closures : Bool) (lines : Lines) {sites : List Site} (h : Lined tree (sites.reverse.map Site.path))
    (hspare : ∀ site ∈ sites, tree.SpareAt site.path) :
    (sites.foldl ((voidReturn closures).correctSite lines) ⟨tree, some, []⟩).tree =
        (clear tree (sites.reverse.map Site.path)).tree ∧
      (sites.foldl ((voidReturn closures).correctSite lines) ⟨tree, some, []⟩).moved =
        (clear tree (sites.reverse.map Site.path)).moved := by
  induction sites using List.reverseRecOn with
  | nil => exact ⟨rfl, rfl⟩
  | append_singleton sites site ih =>
    rw [List.reverse_append, List.reverse_singleton, List.singleton_append, List.map_cons] at h ⊢
    obtain ⟨htree, hmoved⟩ := ih h.tail fun other hother => hspare other (by simp [hother])
    obtain ⟨part, -, hstays⟩ := h.exists_part
    rw [List.foldl_append, List.foldl_cons, List.foldl_nil,
      correctSite_voidReturn (by rw [hmoved]; exact hstays) (hspare site (by simp)).ne_nil, htree, hmoved]
    exact ⟨rfl, rfl⟩

/-- A pass takes out all clauses that say nothing. -/
theorem correct_voidReturn (closures : Bool) {text : String} (source : Source)
    (hdescends : Descends (tokensOf text) source.tree) (h : source.tree.Sturdy) :
    ((voidReturn closures).correct source []).source = Source.ofTree (sweep closures source.tree).tree := by
  have hrule : (voidReturn closures).IsBuiltin := .inr ⟨closures, rfl⟩
  have htrail : ((voidReturn closures).order source.tree []).reverse.map Site.path = clauses closures source.tree :=
    Rule.trail_eq hdescends hrule
  have hspare : ∀ site ∈ (voidReturn closures).order source.tree [], source.tree.SpareAt site.path := by
    intro site hsite
    have hmem : site.path ∈ clauses closures source.tree := htrail ▸ List.mem_map_of_mem (List.mem_reverse.2 hsite)
    exact spareAt_of_mem_clauses hmem
  have hfold := (foldl_correctSite closures source.lines
    (htrail ▸ lined_clauses closures h hdescends.shaped) hspare).1
  rw [htrail] at hfold
  exact congrArg Source.ofTree hfold

/-! ## Exchanges -/

variable {old new : Tree} {q : Path}

lemma not_hasSite_nil : ¬ (voidReturn closures).HasSite tree [] := by
  intro h
  obtain ⟨site, hsite⟩ := Rule.hasSite_iff.1 h
  exact (find_voidReturn hsite).2.ne_nil rfl

lemma hasSite_append (hshaped : tree.Shaped) (hpart : tree.sub? q = some old)
    (hnot : ¬ (voidReturn closures).HasSite tree q) (r : Path) :
    (voidReturn closures).HasSite tree (q ++ r) ↔ (voidReturn closures).HasSite old r := by
  cases r with
  | nil => exact iff_of_false (by simpa using hnot) not_hasSite_nil
  | cons i r =>
    have howner := ownerKind?_append_cons hpart i r
    rw [hasSite_voidReturn hshaped, hasSite_voidReturn (hshaped.sub? hpart), sub?_append_some hpart, VoidReturn.inClosure?,
      VoidReturn.inClosure?, howner]

lemma not_hasSite_of_isExpression (hshaped : tree.Shaped) (hpart : tree.sub? q = some old)
    (hexpression : old.isExpression = true) : ¬ (voidReturn closures).HasSite tree q := by
  intro h
  obtain ⟨clause, hclause⟩ := sub?_of_hasSite hshaped h
  obtain rfl := Option.some.inj (hpart.symm.trans hclause)
  simp [isExpression, Tree.kind, Kind.isExpression] at hexpression

/-- What stands outside of an expression is a clause or not, no matter what the expression is. -/
lemma hasSite_replaceAt (h : tree.Sturdy) (hshaped : tree.Shaped) (hold : tree.sub? q = some old)
    (hexpression : old.isExpression = true) (hnew : new.isExpression = true) (hsturdy : new.Sturdy) (hnewShaped : new.Shaped)
    (hp : ¬ q <+: p) : (voidReturn closures).HasSite (tree.replaceAt q new) p ↔ (voidReturn closures).HasSite tree p := by
  have hshaped' : (tree.replaceAt q new).Shaped := hshaped.replaceAt hold (isNode_of_isExpression hexpression) hnewShaped
    (isNode_of_isExpression hnew) (Bool.and_eq_true_iff.1 hnew).2
  have hsturdy' := h.replaceAt hold hexpression hnew hsturdy
  by_cases hwithin : p <+: q
  · -- no expression stands in a clause
    refine iff_of_false (fun hsite => ?_) fun hsite => ?_
    · exact hsturdy'.not_isPrefix_of_isExpression hshaped' hsite (sub?_replaceAt_self new hold) hnew hwithin
    · exact h.not_isPrefix_of_isExpression hshaped hsite hold hexpression hwithin
  · have howner : (tree.replaceAt q new).ownerKind? p = tree.ownerKind? p := by
      rcases List.eq_nil_or_concat' p with rfl | ⟨o, i, rfl⟩
      · rfl
      rw [ownerKind?_concat, ownerKind?_concat]
      have hface := map_face_sub?_replaceAt tree new (q := o) fun hwithin => hp (hwithin.trans (List.prefix_append _ _))
      have := congrArg (Option.map fun seen => seen.2.1) hface
      simpa [Function.comp_def, face] using this
    rw [hasSite_voidReturn hshaped', hasSite_voidReturn hshaped, sub?_replaceAt_of_apart tree new hp hwithin,
      VoidReturn.inClosure?, VoidReturn.inClosure?, howner]

/-- The clauses around an expression stay the same when it is exchanged. -/
lemma exists_clauses_replaceAt (closures : Bool) (h : tree.Sturdy) (hshaped : tree.Shaped) (hold : tree.sub? q = some old)
    (hexpression : old.isExpression = true) :
    ∃ front back, (∀ new : Tree, new.isExpression = true → new.Sturdy → new.Shaped →
        clauses closures (tree.replaceAt q new) = front ++ ((clauses closures new).map (q ++ ·) ++ back)) ∧
      (∀ p ∈ front, Path.Precedes p q) ∧ ∀ p ∈ back, Path.Precedes q p := by
  obtain ⟨front, back, hpaths, hfront, hback⟩ := exists_nodePaths_replaceAt hold
  refine ⟨front.filter ((voidReturn closures).HasSite tree ·), back.filter ((voidReturn closures).HasSite tree ·),
    fun new hnew hsturdy hnewShaped => ?_, fun p hp => ?_, fun p hp => hback p (List.mem_filter.1 hp).1⟩
  · have hshaped' : (tree.replaceAt q new).Shaped := hshaped.replaceAt hold (isNode_of_isExpression hexpression) hnewShaped
      (isNode_of_isExpression hnew) (Bool.and_eq_true_iff.1 hnew).2
    have hsame : ∀ p, ¬ q <+: p → decide ((voidReturn closures).HasSite (tree.replaceAt q new) p) =
        decide ((voidReturn closures).HasSite tree p) := fun p hp =>
      decide_eq_decide.2 (hasSite_replaceAt h hshaped hold hexpression hnew hsturdy hnewShaped hp)
    have hinside : ∀ r, decide ((voidReturn closures).HasSite (tree.replaceAt q new) (q ++ r)) =
        decide ((voidReturn closures).HasSite new r) := fun r =>
      decide_eq_decide.2 (hasSite_append hshaped' (sub?_replaceAt_self new hold)
        (not_hasSite_of_isExpression hshaped' (sub?_replaceAt_self new hold) hnew) r)
    rw [clauses, hpaths, List.filter_append, List.filter_append, List.append_assoc,
      List.filter_congr fun p hp => hsame p (hfront p hp).1, List.filter_congr fun p hp => hsame p (hback p hp).apart.1,
      List.filter_map]
    congr 2
    exact congrArg (List.map (q ++ ·)) (List.filter_congr fun r _ => hinside r)
  · obtain ⟨hp, hsite⟩ := List.mem_filter.1 hp
    obtain ⟨hnot, hprecedes | ⟨hwithin, -⟩⟩ := hfront p hp
    · exact hprecedes
    · exact absurd hwithin (h.not_isPrefix_of_isExpression hshaped (by simpa using hsite) hold hexpression)

/-- An expression begins with a significant token. -/
lemma fronted_of_isExpression (hshaped : tree.Shaped) (h : tree.isExpression = true) : tree.Fronted := by
  obtain ⟨hnode, hkind⟩ := Bool.and_eq_true_iff.1 h
  obtain ⟨n, token, htoken, htrivia, -⟩ := Shaped.exists_first tree hshaped hnode hkind
  clear hshaped h hnode hkind
  induction n generalizing tree with
  | zero =>
    obtain rfl : tree = .leaf token := by simpa using htoken
    exact ⟨_, _, slots_leaf token, by simp [Slot.isSignificant, htrivia]⟩
  | succ n ih =>
    obtain ⟨kind, children, child, rfl, hchild, hsub⟩ := exists_child_of_sub?_cons htoken
    rw [← List.head?_eq_getElem?] at hchild
    obtain ⟨rest, rfl⟩ := List.head?_eq_some_iff.1 hchild
    obtain ⟨slot, slots, hslots, hsignificant⟩ := ih hsub
    exact ⟨slot.under [0], _, by rw [slots_node kind (by simp), slotsFrom, hslots]; rfl, hsignificant⟩

lemma fronted_sweep (closures : Bool) (h : tree.Sturdy) (hshaped : tree.Shaped) (hexpression : tree.isExpression = true) :
    (sweep closures tree).tree.Fronted := by
  have hcleared := cleared_sweep closures h hshaped
  obtain ⟨later, hlater, htrims, -⟩ := hcleared.trimming.part hcleared.trimming.root (sub?_nil tree)
  obtain rfl : (sweep closures tree).tree = later := by simpa using hlater
  refine fronted_of_isExpression (htrims.shaped hshaped) ?_
  rw [isExpression, htrims.echo.isNode_eq, htrims.echo.kind_eq]
  exact hexpression

variable {front back : List Path}

/-- Clauses before an expression hold a significant token that the sweep behind them leaves. -/
lemma lined_front (h : Lined tree front) (hrest : Lined tree back) (hfront : ∀ p ∈ front, Path.Precedes p q)
    (hback : ∀ p ∈ back, Path.Precedes q p) (new : Tree) : Lined ((clear tree back).tree.replaceAt q new) front := by
  refine ⟨h.sorted, fun p hp => ?_⟩
  obtain ⟨x, hx, hsignificant, hwithin⟩ := h.held p hp
  have hxq : Path.Precedes x.path q := by
    obtain ⟨r, hr⟩ := hwithin
    simpa [hr] using (hfront p hp).append r []
  have hstays := (clear_of_ahead hrest hx hsignificant fun r hr => hxq.trans (hback r hr)).2 x.path _
    (sub?_of_mem_placedTokens hx) (.inl rfl)
  have hplace := sub?_replaceAt_of_precedes new hstays (.inl hxq)
  exact ⟨_, mem_placedTokens_of_sub? hplace, hsignificant, by simpa using hwithin⟩

/-- Within an expression a sweep is the same wherever the expression stands. -/
lemma sweep_inside (closures : Bool) {whole : Tree} (hpart : whole.sub? q = some tree) (h : tree.Sturdy)
    (hshaped : tree.Shaped) (hrank : tree.isNode = true → tree.kind.rank ≤ 1) :
    (clear whole ((clauses closures tree).map (q ++ ·))).tree = whole.replaceAt q (sweep closures tree).tree ∧
      ∀ s, (q <+: s → s = q) → (clear whole ((clauses closures tree).map (q ++ ·))).moved s = some s := by
  refine clear_map_append hpart (lined_clauses closures h hshaped) fun p hp => ?_
  have hsite := hasSite_of_mem_clauses hp
  obtain ⟨clause, hclause⟩ := sub?_of_hasSite hshaped hsite
  obtain ⟨hbefore, y, hy, hsignificant, hpy, hout⟩ := h.exists_braces hshaped (hrank (isNode_of_sub? hclause rfl)) hsite
  exact ⟨hbefore, y, hy, hsignificant, hpy, fun r hr => hout r (hasSite_of_mem_clauses hr)⟩

/-- A sweep deals with the clauses behind an expression, with those in it and then with those before it. -/
lemma sweep_stages (closures : Bool) (hold : tree.sub? q = some old) (hlined : Lined tree back) (hroot : [] ∉ back)
    (hparted : ∀ p ∈ back, ∃ x ∈ tree.placedTokens, x.isTrivia = false ∧ Path.Precedes q x.path ∧ Path.Precedes x.path p)
    (hnew : new.isExpression = true) (hsturdy : new.Sturdy) (hshaped : new.Shaped)
    (hclauses : clauses closures (tree.replaceAt q new) = front ++ ((clauses closures new).map (q ++ ·) ++ back)) :
    (sweep closures (tree.replaceAt q new)).tree =
        (clear ((clear tree back).tree.replaceAt q (sweep closures new).tree) front).tree ∧
      ∀ s, (q <+: s → s = q) → (sweep closures (tree.replaceAt q new)).moved s =
        ((clear tree back).moved s).bind
          (clear ((clear tree back).tree.replaceAt q (sweep closures new).tree) front).moved := by
  obtain ⟨hmoved, hsub, hclear⟩ := clear_replaceAt_right hlined hold new hparted
  obtain ⟨hinside, hstays⟩ := sweep_inside closures (sub?_replaceAt_self new hsub) hsturdy hshaped fun _ =>
    (Kind.rank_of_isExpression (Bool.and_eq_true_iff.1 hnew).2).le
  rw [replaceAt_replaceAt] at hinside
  rw [sweep, hclauses]
  refine ⟨by rw [tree_clear_append, tree_clear_append, hclear, hinside], fun s hs => ?_⟩
  rw [moved_clear_append, moved_clear_append, tree_clear_append, hclear, hinside]
  cases hs' : (clear tree back).moved s with
  | none => rfl
  | some s' =>
    have hplace : q <+: s' → s' = q := by
      intro hwithin
      obtain rfl := hs (((relocation_clear hlined hroot).prefix_iff hmoved hs').1 hwithin)
      exact Option.some.inj (hs'.symm.trans hmoved)
    simp [hstays s' hplace]

/-- A sweep around an expression does not notice that another one takes its place. -/
theorem sweep_replaceAt (closures : Bool) (h : tree.Sturdy) (hshaped : tree.Shaped) (hroot : tree.kind.rank ≠ 3)
    (hold : tree.sub? q = some old) (hexpression : old.isExpression = true) (hnew : new.isExpression = true)
    (hsturdy : new.Sturdy) (hnewShaped : new.Shaped) :
    ∃ q', (sweep closures tree).moved q = some q' ∧
      (sweep closures tree).tree.sub? q' = some (sweep closures old).tree ∧
      (sweep closures (tree.replaceAt q new)).tree = (sweep closures tree).tree.replaceAt q' (sweep closures new).tree ∧
      ∀ s, ¬ q <+: s → (sweep closures (tree.replaceAt q new)).moved s = (sweep closures tree).moved s := by
  obtain ⟨front, back, hclauses, hfront, hback⟩ := exists_clauses_replaceAt closures h hshaped hold hexpression
  have holdSturdy := h.sub? hold
  have holdShaped := hshaped.sub? hold
  have hwhole := hclauses old hexpression holdSturdy holdShaped
  rw [replaceAt_self hold] at hwhole
  have hlined := hwhole ▸ lined_clauses closures h hshaped
  have hnil : [] ∉ front ++ ((clauses closures old).map (q ++ ·) ++ back) := hwhole ▸ nil_notMem_clauses
  have hrest := hlined.right.right
  have hparted : ∀ p ∈ back, ∃ x ∈ tree.placedTokens, x.isTrivia = false ∧ Path.Precedes q x.path ∧
      Path.Precedes x.path p := fun p hp =>
    h.exists_between hshaped hroot (hasSite_of_mem_clauses (by rw [hwhole]; simp [hp])) hold hexpression (hback p hp)
  obtain ⟨hmoved₁, hsub₁, -⟩ := clear_replaceAt_right hrest hold old hparted
  have hroot' : [] ∉ back := fun hmem => hnil (by simp [hmem])
  obtain ⟨htree, hmoved⟩ := sweep_stages closures hold hrest hroot' hparted hexpression holdSturdy holdShaped
    (hclauses old hexpression holdSturdy holdShaped)
  obtain ⟨htree', hmoved'⟩ := sweep_stages closures hold hrest hroot' hparted hnew hsturdy hnewShaped
    (hclauses new hnew hsturdy hnewShaped)
  rw [replaceAt_self hold] at htree hmoved
  -- the clauses before the expression see no more of it than its first token
  obtain ⟨q', hq', hsub', hclear⟩ := clear_replaceAt_left
    (lined_front hlined.left hrest hfront hback (sweep closures old).tree) (fun hmem => hnil (by simp [hmem]))
    (sub?_replaceAt_self _ hsub₁) (fronted_sweep closures holdSturdy holdShaped hexpression)
    (fronted_sweep closures hsturdy hnewShaped hnew) hfront
  rw [replaceAt_replaceAt] at hclear
  refine ⟨q', by rw [hmoved q fun _ => rfl, hmoved₁, Option.bind_some, hq'], by rw [htree, hsub'],
    by rw [htree', hclear, htree], fun s hs => ?_⟩
  rw [hmoved' s fun hwithin => absurd hwithin hs, hmoved s fun hwithin => absurd hwithin hs, hclear]

end Rules

end SwiftTidy

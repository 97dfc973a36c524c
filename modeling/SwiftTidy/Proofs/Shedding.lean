import SwiftTidy.Proofs.Standing

/-!
# One correction in an orderly tree

A correction of an orderly tree leaves one site less. Every site that is left comes from another one, no two from the
same, and it is switched off exactly if that one was (`Sheds`). This holds of a chain that a comparison takes
the place of (`Rules.Rewrites.exists_sheds`) and of a return clause that is taken out (`Edit.Clears.sheds`): the
directives are still there, in the same order with the sites, and lines end where they ended before.
-/

namespace SwiftTidy

open SwiftTidy.Tree Rules Rules.Expectation

namespace Path

lemma precedes_append_iff {p q r : Path} (h : ¬ q <+: p) (h' : ¬ p <+: q) : Precedes p (q ++ r) ↔ Precedes p q := by
  constructor
  · intro hbefore
    rcases precedes_total p q with hpq | hqp | hpq | hqp
    · exact hpq
    · exact absurd hbefore (by simpa using (hqp.append r []).asymm)
    · exact absurd hpq h'
    · exact absurd hqp h
  · intro hbefore
    simpa using hbefore.append [] r

lemma append_precedes_iff {p q r : Path} (h : ¬ q <+: p) (h' : ¬ p <+: q) : Precedes (q ++ r) p ↔ Precedes q p := by
  constructor
  · intro hbefore
    rcases precedes_total q p with hqp | hpq | hqp | hpq
    · exact hqp
    · exact absurd hbefore (by simpa using (hpq.append [] r).asymm)
    · exact absurd hqp h
    · exact absurd hpq h'
  · intro hbefore
    simpa using hbefore.append r []

end Path

/-- A correction at a path of a tree leaves a tree behind in which every site comes from another one. -/
structure Sheds (path : Path) (origin : Path → Path → Prop) (tree later : Tree) : Prop where
  hasLineDirective : later.HasLineDirective → tree.HasLineDirective
  anchored : later.Anchored
  off_iff : ∀ {q' q}, origin q' q → ∀ id, later.Off id q' ↔ tree.Off id q
  injective : ∀ {p q r}, origin p r → origin q r → p = q
  exists_origin : ∀ {rule : Rule}, rule.IsBuiltin → ∀ {q'}, rule.HasSite later q' →
    ∃ q, origin q' q ∧ q ≠ path ∧ rule.HasSite tree q
  neutral_or : ∀ {q' q}, origin q' q → ∀ placed' ∈ later.placedTokens, q' <+: placed'.path →
    tree.Neutral placed'.token ∨ ∃ placed ∈ tree.placedTokens, q <+: placed.path ∧ placed.token = placed'.token

namespace Sheds

variable {text : String} {path : Path} {origin : Path → Path → Prop} {tree later : Tree} {rule : Rule}

section

variable (h : Sheds path origin tree later) (hanchored : tree.Anchored) (hdescends : Descends (tokensOf text) tree)
  (hdescends' : Descends (tokensOf text) later) (hrule : rule.IsBuiltin)

include h hanchored hdescends hdescends' hrule

lemma exists_active {q' : Path} (hq' : q' ∈ rule.active later) : ∃ q ∈ rule.active tree, origin q' q ∧ q ≠ path := by
  obtain ⟨hsite, hon⟩ := (Rule.mem_active_iff h.anchored hdescends' hrule).1 hq'
  obtain ⟨q, hq, hne, hsite⟩ := h.exists_origin hrule hsite
  refine ⟨q, (Rule.mem_active_iff hanchored hdescends hrule).2 ⟨hsite, ?_⟩, hq, hne⟩
  rwa [← h.off_iff hq]

lemma length_active_le : (rule.active later).length ≤ ((rule.active tree).erase path).length := by
  refine length_le_of_injective (R := origin) (Rule.nodup_trail hrule _ _) (fun q' hq' => ?_) h.injective
  obtain ⟨q, hq, horigin, hne⟩ := h.exists_active hanchored hdescends hdescends' hrule hq'
  exact ⟨q, (List.mem_erase_of_ne hne).2 hq, horigin⟩

end

/-- A correction keeps an orderly tree orderly. -/
lemma orderly (h : Sheds path origin tree later) (horderly : tree.Orderly) (hdescends : Descends (tokensOf text) tree)
    (hdescends' : Descends (tokensOf text) later) : later.Orderly := by
  refine ⟨h.anchored, fun q' hq' placed' hplaced' hwithin => Neutral.mono ?_ h.hasLineDirective⟩
  obtain ⟨rule, hrule, hq'⟩ : ∃ rule : Rule, rule.IsBuiltin ∧ q' ∈ rule.active later := by
    rcases List.mem_append.1 hq' with hq' | hq'
    · exact ⟨_, Or.inl rfl, hq'⟩
    · exact ⟨_, Or.inr ⟨true, rfl⟩, hq'⟩
  obtain ⟨q, hq, horigin, -⟩ := h.exists_active horderly.anchored hdescends hdescends' hrule hq'
  rcases h.neutral_or horigin placed' hplaced' hwithin with hneutral | ⟨placed, hplaced, hin, htoken⟩
  · exact hneutral
  · rw [← htoken]
    exact horderly.neutral_of_isPrefix hdescends hrule hq hplaced hin

end Sheds

variable {placed : Placed} {q : Path} {rule : Rule} {tree : Tree}

lemma Tree.not_isPrefix_of_token (hplaced : placed ∈ tree.placedTokens) {kind : Kind} {children : List Tree}
    (hnode : tree.sub? q = some (.node kind children)) : ¬ placed.path <+: q := by
  rintro ⟨r, rfl⟩
  rw [sub?_append, sub?_of_mem_placedTokens hplaced] at hnode
  cases r <;> simp [sub?] at hnode

lemma Tree.neutral_of_mem_connectives (tree : Tree) {token : Token} (h : token ∈ connectives) : tree.Neutral token := by
  have hall : ∀ token ∈ connectives, token.kind.isComment = false ∧ token.holdsBreak = false := by decide +kernel
  obtain ⟨hcomment, hbreak⟩ := hall token h
  exact ⟨by simp [Token.directive?, hcomment], fun _ => hbreak⟩

lemma Placed.chars_ne_nil {row : List Placed} (h : placed ∈ row) (hsound : placed.token.Sound) : chars row ≠ [] := by
  obtain ⟨front, back, rfl⟩ := List.append_of_mem h
  obtain ⟨c, w, htext, -⟩ := hsound
  simp [htext]

lemma Rule.HasSite.exists_token (h : rule.HasSite tree q) (hrule : rule.IsBuiltin) (hshaped : tree.Shaped) :
    ∃ placed ∈ tree.placedTokens, q <+: placed.path := by
  obtain ⟨kind, children, first, rest, hpart, hrow, -⟩ := h.exists_first hrule hshaped
  obtain ⟨front, back, htokens, -⟩ := exists_tokens_split hpart
  exact ⟨first.under q, by simp [htokens, hrow], by simp⟩

/-! ## Chains that are rewritten -/

namespace Tree

variable {path : Path} {tree : Tree}

/-- The first token of an expression stands before every node in it that is no expression. -/
lemma Shaped.exists_first_precedes (hshaped : tree.Shaped) (hnode : tree.isNode = true)
    (hkind : tree.kind.isExpression = true) :
    ∃ r token, tree.sub? r = some (.leaf token) ∧ token.isTrivia = false ∧
      ∀ s kind children, tree.sub? s = some (.node kind children) → kind.isExpression = false → Path.Precedes r s := by
  obtain ⟨n, token, hfirst, htrivia, hway⟩ := hshaped.exists_first tree hnode hkind
  refine ⟨_, token, hfirst, htrivia, fun s kind children hs hother => ?_⟩
  rcases Path.precedes_total (List.replicate n 0) s with h | h | ⟨r, rfl⟩ | h
  · exact h
  · exact absurd h (Path.not_precedes_replicate s n)
  · rw [sub?_append, hfirst] at hs
    cases r <;> simp [Tree.sub?] at hs
  · -- what lies on the way to the first token is an expression
    exfalso
    obtain ⟨m, hm, rfl⟩ : ∃ m ≤ n, s = List.replicate m 0 := by
      obtain ⟨hm, heq⟩ := List.prefix_replicate_iff.1 h
      exact ⟨s.length, hm, heq⟩
    rcases hm.lt_or_eq with hm | rfl
    · obtain ⟨kind', children', hnode', hexpression⟩ := hway m hm
      rw [hs, Option.some.injEq, Tree.node.injEq] at hnode'
      rw [hnode'.1, hexpression] at hother
      simp at hother
    · simp [hfirst] at hs

lemma placedDirectives_eq_of_outside (h : ∀ entry ∈ tree.placedDirectives, ¬ path <+: entry.1) :
    tree.placedDirectives =
      (tree.tokensOutside [path]).filterMap fun placed => placed.token.directive?.map (Prod.mk placed.path) := by
  rw [tokensOutside, List.filterMap_filter, placedDirectives]
  refine List.filterMap_congr fun placed hplaced => ?_
  cases hdirective : placed.token.directive? with
  | none => simp
  | some directive =>
    have hout := h (placed.path, directive) (mem_placedDirectives.2 ⟨placed, hplaced, rfl, hdirective⟩)
    simpa [List.isPrefixOf_iff_prefix, ← Bool.not_eq_true] using hout

/-- The tokens before a part, those of the part, and those after it, the latter being the tokens outside of it. -/
lemma exists_tokensOutside_split {part : Tree} (hpart : tree.sub? path = some part) :
    ∃ inner, tree.placedTokens =
        (tree.tokensOutside [path]).filter (fun placed => Path.Precedes placed.path path) ++
          (inner ++ (tree.tokensOutside [path]).filter (fun placed => ¬ Path.Precedes placed.path path)) ∧
      ∀ placed ∈ tree.placedTokens, placed ∈ inner ↔ path <+: placed.path := by
  obtain ⟨front, back, htokens, hfront, hback, -⟩ := exists_tokens_split hpart
  generalize hinner : part.placedTokens.map (Placed.under path) = inner at htokens
  have hin : ∀ placed ∈ inner, path <+: placed.path := by
    intro placed hplaced
    rw [← hinner] at hplaced
    obtain ⟨placed, -, rfl⟩ := List.mem_map.1 hplaced
    simp
  have houtside : tree.tokensOutside [path] = front ++ back := by
    have hkeep : ∀ row : List Placed, (∀ placed ∈ row, ¬ path <+: placed.path) →
        row.filter (fun placed => [path].all fun path => !path.isPrefixOf placed.path) = row := fun row hrow =>
      List.filter_eq_self.2 fun placed hplaced => by
        simpa [← Bool.not_eq_true, List.isPrefixOf_iff_prefix] using hrow placed hplaced
    have hdrop : inner.filter (fun placed => [path].all fun path => !path.isPrefixOf placed.path) = [] :=
      List.filter_eq_nil_iff.2 fun placed hplaced => by
        simpa [← Bool.not_eq_true, List.isPrefixOf_iff_prefix] using hin placed hplaced
    rw [tokensOutside, htokens, List.filter_append, List.filter_append, hdrop, List.append_nil,
      hkeep front fun placed hplaced => (hfront placed hplaced).apart.2,
      hkeep back fun placed hplaced => (hback placed hplaced).apart.1]
  have hbefore : (front ++ back).filter (fun placed => Path.Precedes placed.path path) = front := by
    rw [List.filter_append, List.filter_eq_self.2 (by simpa using hfront), List.filter_eq_nil_iff.2, List.append_nil]
    exact fun placed hplaced => by simpa using (hback placed hplaced).asymm
  have hbehind : (front ++ back).filter (fun placed => ¬ Path.Precedes placed.path path) = back := by
    rw [List.filter_append, List.filter_eq_nil_iff.2 (by simpa using hfront), List.filter_eq_self.2, List.nil_append]
    exact fun placed hplaced => by simpa using (hback placed hplaced).asymm
  refine ⟨inner, by rw [houtside, hbefore, hbehind, htokens, List.append_assoc], fun placed hplaced => ⟨hin placed, ?_⟩⟩
  intro hwithin
  rw [htokens, List.mem_append, List.mem_append] at hplaced
  rcases hplaced with (hplaced | hplaced) | hplaced
  · exact absurd hwithin (hfront placed hplaced).apart.2
  · exact hplaced
  · exact absurd hwithin (hback placed hplaced).apart.1

end Tree

namespace Rules.Rewrites

variable {text : String} {tree later : Tree} {path : Path}

/-- A token of the comparison was in the chain, or it is a connective. -/
lemma exists_token_of_isPrefix (hshaped : tree.Shaped) (h : Rewrites path tree later) {placed' : Placed}
    (hplaced' : placed' ∈ later.placedTokens) (hwithin : path <+: placed'.path) :
    placed'.token ∈ connectives ∨
      ∃ placed ∈ tree.placedTokens, path <+: placed.path ∧ placed.token = placed'.token := by
  obtain ⟨chain, right, -, hchain, hright, rfl⟩ := h
  obtain ⟨call, member, subject, argument, matching, links⟩ := chain?_eq_some_iff.1 hchain
  obtain ⟨part, hpart, rfl⟩ := Option.map_eq_some_iff.1 links.part
  refine or_iff_not_imp_left.2 fun hnot => ?_
  obtain ⟨s, hs⟩ := hwithin
  have hleaf := sub?_of_mem_placedTokens hplaced'
  rw [← hs, sub?_append_some (sub?_replaceAt_self _ hpart)] at hleaf
  have hsub := links.original_comparison (hshaped.sub? hpart) hright
  have hmem := (List.mem_filter.1 (hsub.subset (List.mem_filter.2 ⟨token_mem_leaves hleaf, by simpa using hnot⟩))).1
  have hmem : placed'.token ∈ part.leaves := hmem
  rw [← map_token_placedTokens, List.mem_map] at hmem
  obtain ⟨inner, hinner, htoken⟩ := hmem
  have hinside : tree.sub? (path ++ inner.path) = some (.leaf placed'.token) := by
    rw [sub?_append, hpart, ← htoken]
    exact sub?_of_mem_placedTokens hinner
  exact ⟨_, mem_placedTokens_of_sub? hinside, by rw [Placed.path_mk]; exact List.prefix_append _ _, rfl⟩

lemma hasSite (h : Rewrites path tree later) : expectation.HasSite tree path := by
  obtain ⟨chain, -, -, hchain, -⟩ := h
  exact hasSite_expectation.2 ⟨chain, hchain⟩

lemma tokensOutside_eq (h : Rewrites path tree later) : later.tokensOutside [path] = tree.tokensOutside [path] := by
  obtain ⟨chain, right, hne, hchain, hright, rfl⟩ := h
  exact ((Rewritten.init tree []).step ⟨chain, hchain⟩ (by simp) hne hchain hright []).tokensOutside_eq (by simp)

lemma mem_placedTokens_iff (h : Rewrites path tree later) {placed : Placed} (hout : ¬ path <+: placed.path) :
    placed ∈ later.placedTokens ↔ placed ∈ tree.placedTokens := by
  have hmem : ∀ {other : Tree}, placed ∈ other.tokensOutside [path] ↔ placed ∈ other.placedTokens := by
    intro other
    rw [tokensOutside, List.mem_filter]
    simpa [← Bool.not_eq_true, List.isPrefixOf_iff_prefix] using fun _ => hout
  rw [← hmem, h.tokensOutside_eq, hmem]

section

variable (hdescends : Descends (tokensOf text) tree) (h : Rewrites path tree later)

include hdescends h

variable {placed : Placed} {q' : Path}

lemma not_isPrefix_of_mem (hplaced : placed ∈ tree.placedTokens) : ¬ placed.path <+: path := by
  obtain ⟨kind, children, hnode, -⟩ := kind_of_hasSite (Or.inl rfl) hdescends.shaped h.hasSite
  exact not_isPrefix_of_token hplaced hnode

lemma precedes_iff {kept : List (Path × Path)} (hkept : ∀ pair ∈ kept, path <+: pair.2) {q : Path}
    (horigin : Origin path kept q' q) (hplaced : placed ∈ tree.placedTokens) (hout : ¬ path <+: placed.path) :
    Path.Precedes placed.path q' ↔ Path.Precedes placed.path q := by
  have hapart := h.not_isPrefix_of_mem hdescends hplaced
  cases horigin with
  | outside => exact Iff.rfl
  | @inside pair i r hpair =>
    obtain ⟨s, hs⟩ := hkept pair hpair
    rw [← hs, List.append_assoc, Path.precedes_append_iff hout hapart, Path.precedes_append_iff hout hapart]

/-- The first token of the comparison. It is significant and stands before the clauses in the comparison. -/
lemma exists_first :
    ∃ first ∈ later.placedTokens, path <+: first.path ∧ first.isTrivia = false ∧
      ∀ q, (voidReturn true).HasSite later q → path <+: q → Path.Precedes first.path q := by
  have hdescends' := hdescends.rewrite h
  obtain ⟨chain, right, hne, hchain, hright, rfl⟩ := h
  obtain ⟨part, hpart⟩ := exists_part_of_chain? hchain
  have hnew := sub?_replaceAt_self (chain.comparison right) hpart
  obtain ⟨r, token, hr, htrivia, hfirst⟩ := (hdescends'.shaped.sub? hnew).exists_first_precedes rfl rfl
  have hleaf : (tree.replaceAt path (chain.comparison right)).sub? (path ++ r) = some (.leaf token) :=
    (sub?_append_some hnew r).trans hr
  refine ⟨_, mem_placedTokens_of_sub? hleaf, by rw [Placed.path_mk]; exact List.prefix_append _ _, htrivia, ?_⟩
  rintro q hsite ⟨s, rfl⟩
  obtain ⟨children, hclause⟩ := exists_clause_of_hasSite hdescends'.shaped hsite
  rw [sub?_append_some hnew] at hclause
  rw [Placed.path_mk, Path.append_precedes_append]
  exact hfirst s _ children hclause rfl

/-- A token outside of the chain that leads a clause in the end led one before. -/
lemma exists_leads (hplaced : placed ∈ tree.placedTokens) (hwithin : ¬ path <+: placed.path)
    (hsite : (voidReturn true).HasSite later q') (hleads : later.Leads placed.path q') :
    ∃ q, (voidReturn true).HasSite tree q ∧ tree.Leads placed.path q := by
  obtain ⟨kept, -, -, horigin⟩ := h.exists_origins hdescends
  have hapart := h.not_isPrefix_of_mem hdescends hplaced
  -- the first token of the comparison does not stand in between
  obtain ⟨first, hfirst, ⟨s, hs⟩, htrivia, hbefore⟩ := h.exists_first hdescends
  have hnot : ¬ (Path.Precedes placed.path path ∧ Path.Precedes first.path q') := by
    rintro ⟨hplacedBefore, hfirstBefore⟩
    have hbehind : Path.Precedes placed.path first.path := by
      rw [← hs]
      exact (Path.precedes_append_iff hwithin hapart).2 hplacedBefore
    simp [hleads.2 first hfirst hbehind hfirstBefore] at htrivia
  obtain ⟨q, hq, -, hsite'⟩ := horigin (Or.inr ⟨true, rfl⟩) hsite
  cases hq with
  | inside =>
    exact absurd ⟨(Path.precedes_append_iff hwithin hapart).1 hleads.1, hbefore _ hsite (List.prefix_append _ _)⟩ hnot
  | outside hout =>
    refine ⟨q', hsite', hleads.1, fun other hother hbehind hahead => ?_⟩
    by_cases hin : path <+: other.path
    · exfalso
      obtain ⟨t, ht⟩ := hin
      rw [← ht] at hbehind hahead
      have hnotWithin : ¬ q' <+: path := fun hle => hahead.apart.2 (hle.trans (List.prefix_append _ _))
      refine hnot ⟨(Path.precedes_append_iff hwithin hapart).1 hbehind, ?_⟩
      rw [← hs]
      exact (Path.append_precedes_iff hout hnotWithin).2 ((Path.append_precedes_iff hout hnotWithin).1 hahead)
    · exact hleads.2 other ((h.mem_placedTokens_iff hin).2 hother) hbehind hahead

end

/-! What is rewritten is not switched off, and the tree is orderly. -/

section

variable (hdescends : Descends (tokensOf text) tree) (horderly : tree.Orderly)
  (hpath : path ∈ expectation.active tree) (h : Rewrites path tree later)

include hdescends horderly hpath h

lemma neutral_of_isPrefix {placed' : Placed} (hplaced' : placed' ∈ later.placedTokens)
    (hwithin : path <+: placed'.path) : tree.Neutral placed'.token := by
  rcases h.exists_token_of_isPrefix hdescends.shaped hplaced' hwithin with hmem | ⟨placed, hplaced, hin, htoken⟩
  · exact tree.neutral_of_mem_connectives hmem
  · rw [← htoken]
    exact horderly.neutral_of_isPrefix hdescends (Or.inl rfl) hpath hplaced hin

lemma directives_outside :
    (∀ entry ∈ tree.placedDirectives, ¬ path <+: entry.1) ∧ ∀ entry ∈ later.placedDirectives, ¬ path <+: entry.1 := by
  refine ⟨fun entry => horderly.not_isPrefix hdescends (Or.inl rfl) hpath, fun entry hentry hwithin => ?_⟩
  obtain ⟨placed', hplaced', hat, hdirective⟩ := mem_placedDirectives.1 hentry
  rw [← hat] at hwithin
  simp [(h.neutral_of_isPrefix hdescends horderly hpath hplaced' hwithin).1] at hdirective

lemma placedDirectives_eq : later.placedDirectives = tree.placedDirectives := by
  obtain ⟨hold, hnew⟩ := h.directives_outside hdescends horderly hpath
  rw [placedDirectives_eq_of_outside hold, placedDirectives_eq_of_outside hnew, h.tokensOutside_eq]

variable {kept : List (Path × Path)} {q q' : Path}

/-- Lines end where they ended before. -/
lemma lineAt_eq (hline : tree.HasLineDirective) (hkept : ∀ pair ∈ kept, path <+: pair.2)
    (horigin : Origin path kept q' q) : later.lineAt q' = tree.lineAt q := by
  have hdescends' := hdescends.rewrite h
  obtain ⟨part, hpart⟩ : ∃ part, tree.sub? path = some part := by
    obtain ⟨kind, children, hpart, -⟩ := kind_of_hasSite (Or.inl rfl) hdescends.shaped h.hasSite
    exact ⟨_, hpart⟩
  obtain ⟨part', hpart'⟩ : ∃ part, later.sub? path = some part := by
    obtain ⟨chain, right, -, -, -, rfl⟩ := h
    exact ⟨_, sub?_replaceAt_self _ hpart⟩
  obtain ⟨old, htokens, hold⟩ := exists_tokensOutside_split hpart
  obtain ⟨new, htokens', hnew⟩ := exists_tokensOutside_split hpart'
  rw [h.tokensOutside_eq] at htokens'
  obtain ⟨first, hfirst, hin⟩ := h.hasSite.exists_token (Or.inl rfl) hdescends.shaped
  obtain ⟨first', hfirst', hin', -⟩ := h.exists_first hdescends
  have holdMem : ∀ placed ∈ old, placed ∈ tree.placedTokens := fun placed hplaced => by
    rw [htokens]
    exact List.mem_append_right _ (List.mem_append_left _ hplaced)
  have hnewMem : ∀ placed ∈ new, placed ∈ later.placedTokens := fun placed hplaced => by
    rw [htokens']
    exact List.mem_append_right _ (List.mem_append_left _ hplaced)
  rw [lineAt, lineAt, htokens', htokens]
  refine lineEndsBefore_replace (fun placed hplaced => ?_)
    (Placed.chars_ne_nil ((hnew first' hfirst').2 hin') (hdescends'.sound _ ?_)) (fun placed hplaced => ?_)
    (Placed.chars_ne_nil ((hold first hfirst).2 hin) (hdescends.sound _ ?_)) fun placed hplaced => ?_
  · have hmem := hnewMem placed hplaced
    exact (h.neutral_of_isPrefix hdescends horderly hpath hmem ((hnew placed hmem).1 hplaced)).2 hline
  · exact token_mem_leaves (sub?_of_mem_placedTokens hfirst')
  · have hmem := holdMem placed hplaced
    exact (horderly.neutral_of_isPrefix hdescends (Or.inl rfl) hpath hmem ((hold placed hmem).1 hplaced)).2 hline
  · exact token_mem_leaves (sub?_of_mem_placedTokens hfirst)
  · have houter : placed ∈ tree.tokensOutside [path] := by
      rcases List.mem_append.1 hplaced with hplaced | hplaced <;> exact (List.mem_filter.1 hplaced).1
    obtain ⟨hsub, hout⟩ := mem_tokensOutside.1 houter
    exact h.precedes_iff hdescends hkept horigin (List.mem_filter.1 houter).1 (hout path (by simp))

/-- A place is switched off if the one that it comes from was. -/
lemma off_iff (hkept : ∀ pair ∈ kept, path <+: pair.2) (horigin : Origin path kept q' q) (id : String) :
    later.Off id q' ↔ tree.Off id q := by
  have hsame := h.placedDirectives_eq hdescends horderly hpath
  have hout := (h.directives_outside hdescends horderly hpath).1
  have hdepth : ∀ word, later.depthAt word q' = tree.depthAt word q := by
    intro word
    rw [depthAt, depthAt, hsame]
    congr 2
    refine List.filter_congr fun entry hentry => decide_eq_decide.2 ?_
    obtain ⟨placed, hplaced, hat, -⟩ := mem_placedDirectives.1 hentry
    rw [← hat]
    exact h.precedes_iff hdescends hkept horigin hplaced (hat ▸ hout entry hentry)
  simp only [Off, hdepth, hsame]
  refine exists_congr fun word => and_congr_right fun _ => or_congr_right ?_
  refine exists_congr fun entry => and_congr_right fun hentry => exists_congr fun scope => ?_
  refine and_congr_right fun haction => and_congr_right fun _ => ?_
  have hline : tree.HasLineDirective := ⟨entry, hentry, by simp [haction, Action.lasts]⟩
  have hself : Origin path [] entry.1 entry.1 := .outside (hout entry hentry)
  rw [h.lineAt_eq hdescends horderly hpath hline hkept horigin,
    h.lineAt_eq hdescends horderly hpath hline (by simp) hself]

/-- A comparison in place of a chain leaves one site less. -/
lemma exists_sheds : ∃ origin, Sheds path origin tree later ∧ ∀ q, ¬ path <+: q → origin q q := by
  obtain ⟨kept, hkept, hinjective, horigin⟩ := h.exists_origins hdescends
  have hline : later.HasLineDirective → tree.HasLineDirective := by
    rw [HasLineDirective, h.placedDirectives_eq hdescends horderly hpath]
    exact id
  refine ⟨Origin path kept, ⟨hline, ?_, h.off_iff hdescends horderly hpath hkept, hinjective, horigin, ?_⟩,
    fun q => .outside⟩
  · intro q' _ hsite placed' hplaced' hleads
    refine Neutral.mono ?_ hline
    by_cases hwithin : path <+: placed'.path
    · exact h.neutral_of_isPrefix hdescends horderly hpath hplaced' hwithin
    · have hplaced := (h.mem_placedTokens_iff hwithin).1 hplaced'
      obtain ⟨q, hsiteq, hleadsq⟩ := h.exists_leads hdescends hplaced hwithin hsite hleads
      exact horderly.anchored.neutral hdescends.shaped hsiteq hplaced hleadsq
  · intro q' q hq placed' hplaced' hin
    by_cases hwithin : path <+: placed'.path
    · exact Or.inl (h.neutral_of_isPrefix hdescends horderly hpath hplaced' hwithin)
    · cases hq with
      | inside => exact absurd ((List.prefix_append _ _).trans hin) hwithin
      | outside => exact Or.inr ⟨placed', (h.mem_placedTokens_iff hwithin).1 hplaced', hin, rfl⟩

end

end Rules.Rewrites

/-! ## Clauses that are taken out -/

lemma map_snd_filter_filterMap {α β : Type} {row : List (α × β)} {f : α × β → Option (α × β)} {P P' : α × β → Bool}
    (h : ∀ entry ∈ row, ∃ later, f entry = some later ∧ later.2 = entry.2 ∧ P' later = P entry) :
    ((row.filterMap f).filter P').map Prod.snd = (row.filter P).map Prod.snd := by
  induction row with
  | nil => rfl
  | cons entry row ih =>
    obtain ⟨later, hlater, hsnd, hP⟩ := h entry (by simp)
    have ih := ih fun other hother => h other (by simp [hother])
    rw [List.filterMap_cons_some hlater, List.filter_cons, List.filter_cons, hP]
    split
    · rw [List.map_cons, List.map_cons, ih, hsnd]
    · exact ih

lemma Descends.holdsBreak_of_isSpace {text : String} (h : Descends (tokensOf text) tree)
    (hplaced : placed ∈ tree.placedTokens) (hspace : placed.isSpace = true) : placed.token.holdsBreak = false := by
  rcases h.mem_or_mem (token_mem_leaves (sub?_of_mem_placedTokens hplaced)) with hmem | hmem
  · have hall : ∀ token ∈ connectives, token.holdsBreak = false := by decide +kernel
    exact hall _ hmem
  · exact Lexer.holdsBreak_of_mem_tokens hmem (by simpa [Placed.isSpace] using hspace)

lemma Tree.not_between_of_append {a b c : Placed} {front back : List Placed}
    (h : tree.placedTokens = front ++ a :: b :: back) (hc : c ∈ tree.placedTokens) (hac : Path.Precedes a.path c.path) :
    ¬ Path.Precedes c.path b.path := fun hcb => by
  have hrow : tree.placedTokens = front ++ a :: ([] ++ b :: back) := h
  have hgap := mem_gap_of_between hrow hc (Or.inl ⟨hac, hcb⟩)
  simp at hgap

lemma Rule.HasSite.precedes_of_precedes_token {r : Path} (hsite : rule.HasSite tree r) (hrule : rule.IsBuiltin)
    (hshaped : tree.Shaped) {inner : Placed} (hplaced : placed ∈ tree.placedTokens) (hout : ¬ r <+: placed.path)
    (hin : r <+: inner.path) (hbefore : Path.Precedes placed.path inner.path) : Path.Precedes placed.path r := by
  obtain ⟨kind, children, hnode, -⟩ := kind_of_hasSite hrule hshaped hsite
  obtain ⟨s, hs⟩ := hin
  rw [← hs] at hbefore
  exact (Path.precedes_append_iff hout (not_isPrefix_of_token hplaced hnode)).1 hbefore

namespace Edit.Clears

variable {text : String} {tree : Tree} {path : Path} {edit : Edit}

lemma cleared (h : Clears tree path edit) (hsite : (voidReturn true).HasSite tree path) :
    Cleared tree [path] ⟨edit.tree, edit.moved, []⟩ := by
  obtain ⟨site, hfound⟩ := Rule.hasSite_iff.1 hsite
  exact (Cleared.init tree []).step (find_voidReturn hfound).2 rfl h []

lemma placedDirectives_eq (h : Clears tree path edit) :
    edit.tree.placedDirectives =
      tree.placedDirectives.filterMap fun entry => (edit.moved entry.1).map fun p => (p, entry.2) := by
  rw [placedDirectives, h.relocation.tokens, List.filterMap_filterMap, placedDirectives, List.filterMap_filterMap]
  congr 1
  funext placed
  cases hmoved : edit.moved placed.path <;> cases hdirective : placed.token.directive? <;>
    simp [Placed.relocate, hmoved, hdirective]

lemma exists_directive (h : Clears tree path edit) {entry : Path × Directive}
    (hentry : entry ∈ edit.tree.placedDirectives) :
    ∃ p, (p, entry.2) ∈ tree.placedDirectives ∧ edit.moved p = some entry.1 := by
  rw [h.placedDirectives_eq, List.mem_filterMap] at hentry
  obtain ⟨before, hbefore, hmoved⟩ := hentry
  obtain ⟨p, hp, rfl⟩ := Option.map_eq_some_iff.1 hmoved
  exact ⟨before.1, hbefore, hp⟩

/-- There is no line break in a token with something right behind it that is taken out. -/
lemma holdsBreak_of_next (h : Clears tree path edit) (hdescends : Descends (tokensOf text) tree)
    (hanchored : tree.Anchored) (hline : tree.HasLineDirective) (hsite : (voidReturn true).HasSite tree path)
    {front back : List Placed} {placed next : Placed} (hrow : tree.placedTokens = front ++ placed :: next :: back)
    (hgone : edit.moved next.path = none) (hstays : edit.moved placed.path ≠ none) :
    placed.token.holdsBreak = false := by
  have hrule : (voidReturn true).IsBuiltin := Or.inr ⟨true, rfl⟩
  have hplaced : placed ∈ tree.placedTokens := by simp [hrow]
  have hnext : next ∈ tree.placedTokens := by simp [hrow]
  have hout : ¬ path <+: placed.path := fun hwithin => hstays (h.inside _ hwithin)
  have hbefore : Path.Precedes placed.path next.path := by
    have hsorted := tree.pairwise_placedTokens
    rw [hrow, List.pairwise_append, List.pairwise_cons] at hsorted
    exact hsorted.2.1.1 next (by simp)
  have hnone := fun {c : Placed} => not_between_of_append (c := c) hrow
  rcases h.gone _ hgone with hwithin | ⟨blank, hblank, hwithin, hisBlank, -, hside⟩
  · -- the token stands right before the clause
    have hahead := hsite.precedes_of_precedes_token hrule hdescends.shaped hplaced hout hwithin hbefore
    refine (hanchored.neutral hdescends.shaped hsite hplaced ⟨hahead, fun other hother hbehind hin => ?_⟩).2 hline
    obtain ⟨s, hs⟩ := hwithin
    exact absurd (by simpa [← hs] using hin.append [] s) (hnone hother hbehind)
  · obtain rfl := eq_of_isPrefix hblank hnext hwithin
    rcases hside with ⟨hahead, htrivia⟩ | ⟨hbehind, -, hspaces⟩
    · -- it leads the clause as the next one does
      refine (hanchored.neutral hdescends.shaped hsite hplaced
        ⟨hbefore.trans hahead, fun other hother hbehind hin => ?_⟩).2 hline
      rcases Path.precedes_total other.path blank.path with hle | hle | hle | hle
      · exact absurd hle (hnone hother hbehind)
      · exact htrivia other hother hle hin
      · rw [eq_of_isPrefix hother hblank hle]
        exact Placed.isTrivia_of_isBlank hisBlank
      · rw [← eq_of_isPrefix hblank hother hle]
        exact Placed.isTrivia_of_isBlank hisBlank
    · -- it is a space behind the clause
      obtain ⟨kind, children, hnode, -⟩ := kind_of_hasSite hrule hdescends.shaped hsite
      obtain ⟨inner, hinner, s, hs⟩ := hsite.exists_token hrule hdescends.shaped
      rcases Path.precedes_total placed.path path with hle | hle | hle | hle
      · exfalso
        refine hnone hinner ?_ ?_
        · simpa [← hs] using hle.append [] s
        · simpa [← hs] using hbehind.append s []
      · exact hdescends.holdsBreak_of_isSpace hplaced (hspaces placed hplaced hle hbefore)
      · exact absurd hle (not_isPrefix_of_token hplaced hnode)
      · exact absurd hle hout

section

variable (h : Clears tree path edit) (hdescends : Descends (tokensOf text) tree)
  (hsite : (voidReturn true).HasSite tree path)

include h hdescends hsite

lemma hasSite_of_moved {rule : Rule} (hrule : rule.IsBuiltin) {q q' : Path} (hq : edit.moved q = some q')
    (hsiteq : rule.HasSite tree q) : rule.HasSite edit.tree q' := by
  have hcleared := h.cleared hsite
  obtain ⟨kind, children, hpart, -⟩ := kind_of_hasSite hrule hdescends.shaped hsiteq
  obtain ⟨part', hpart', htrims, howner⟩ := hcleared.trimming.part hq hpart
  have hshaped' := (hdescends.clear hcleared).shaped
  exact (hasSite_of_echo hrule hdescends.shaped hshaped' hpart hpart' htrims.echo howner).2 hsiteq

/-- A token that leads a clause in the end led it or the one that was taken out. -/
lemma exists_leads {placed : Placed} (hplaced : placed ∈ tree.placedTokens) {p q q' : Path}
    (hp : edit.moved placed.path = some p) (hq : edit.moved q = some q')
    (hsiteq : (voidReturn true).HasSite tree q) (hleads : edit.tree.Leads p q') :
    ∃ r, (voidReturn true).HasSite tree r ∧ tree.Leads placed.path r := by
  have hrule : (voidReturn true).IsBuiltin := Or.inr ⟨true, rfl⟩
  have hbefore : Path.Precedes placed.path q := (h.relocation.precedes hp hq).1 hleads.1
  obtain ⟨last, hlast, hwithin⟩ := hsiteq.exists_token hrule hdescends.shaped
  have hbeforeLast : Path.Precedes placed.path last.path := by
    obtain ⟨r, hr⟩ := hwithin
    simpa [← hr] using hbefore.append [] r
  -- between the token and the clause there are trivia and perhaps the one that was taken out
  have hbetween : ∀ other ∈ tree.placedTokens, Path.Between placed.path other.path last.path →
      other.isTrivia = true ∨ ∃ r ∈ [q, path], r <+: other.path := by
    rintro other hother (⟨hbehind, hahead⟩ | ⟨hbehind, hahead⟩)
    · by_cases hinside : q <+: other.path
      · exact Or.inr ⟨q, by simp, hinside⟩
      have hotherBefore := hsiteq.precedes_of_precedes_token hrule hdescends.shaped hother hinside hwithin hahead
      cases hmoved : edit.moved other.path with
      | none =>
        rcases h.gone _ hmoved with hin | ⟨blank, hblank, hin, hisBlank, -⟩
        · exact Or.inr ⟨path, by simp, hin⟩
        · rw [← eq_of_isPrefix hblank hother hin]
          exact Or.inl (Placed.isTrivia_of_isBlank hisBlank)
      | some other' =>
        have htrivia := hleads.2 _ (h.relocation.mem_tokens hother hmoved)
        rw [Placed.path_mk] at htrivia
        exact Or.inl (htrivia ((h.relocation.precedes hp hmoved).2 hbehind)
          ((h.relocation.precedes hmoved hq).2 hotherBefore))
    · exact absurd (hbehind.trans hahead) hbeforeLast.asymm
  obtain ⟨r, hr, inner, hinner, hin, hplace, hgap⟩ := exists_nearest hlast ⟨q, by simp, hwithin⟩ hbetween
  have hbeforeInner : Path.Precedes placed.path inner.path := by
    rcases hplace with rfl | ⟨hplace, -⟩ | ⟨hlastInner, hinnerPlaced⟩
    · exact hbeforeLast
    · exact hplace
    · exact absurd (hlastInner.trans hinnerPlaced) hbeforeLast.asymm
  obtain ⟨hrsite, hout⟩ : (voidReturn true).HasSite tree r ∧ ¬ r <+: placed.path := by
    simp only [List.mem_cons, List.not_mem_nil, or_false] at hr
    rcases hr with rfl | rfl
    · exact ⟨hsiteq, hbefore.apart.2⟩
    · exact ⟨hsite, fun hle => by simp [h.inside _ hle] at hp⟩
  refine ⟨r, hrsite, hrsite.precedes_of_precedes_token hrule hdescends.shaped hplaced hout hin hbeforeInner, ?_⟩
  intro other hother hbehind hahead
  refine hgap other hother (Or.inl ⟨hbehind, ?_⟩)
  obtain ⟨s, hs⟩ := hin
  simpa [← hs] using hahead.append [] s

end

/-! What is taken out is not switched off, and the tree is orderly. -/

section

variable (h : Clears tree path edit) (hdescends : Descends (tokensOf text) tree) (horderly : tree.Orderly)
  (hpath : path ∈ (voidReturn true).active tree)

include h hdescends horderly hpath

/-- A directive is still there. -/
lemma exists_moved_of_directive {entry : Path × Directive} (hentry : entry ∈ tree.placedDirectives) :
    ∃ p, edit.moved entry.1 = some p := by
  cases hmoved : edit.moved entry.1 with
  | some p => exact ⟨p, rfl⟩
  | none =>
    exfalso
    rcases h.gone entry.1 hmoved with hwithin | ⟨blank, hblank, hwithin, hisBlank, -⟩
    · exact horderly.not_isPrefix hdescends (Or.inr ⟨true, rfl⟩) hpath hentry hwithin
    · -- a blank is no directive
      obtain ⟨placed, hplaced, hat, hdirective⟩ := mem_placedDirectives.1 hentry
      rw [← hat] at hwithin
      obtain rfl := eq_of_isPrefix hblank hplaced hwithin
      simp only [Placed.isBlank, Placed.isSpace, Placed.isNewline, Bool.or_eq_true, beq_iff_eq] at hisBlank
      rcases hisBlank with hkind | hkind <;> simp [Token.directive?, hkind, Kind.isComment] at hdirective

/-- There is no line break in what is taken out. -/
lemma holdsBreak_of_gone (hline : tree.HasLineDirective) {placed : Placed} (hplaced : placed ∈ tree.placedTokens)
    (hgone : edit.moved placed.path = none) : placed.token.holdsBreak = false := by
  have hrule : (voidReturn true).IsBuiltin := Or.inr ⟨true, rfl⟩
  rcases h.gone _ hgone with hwithin | ⟨blank, hblank, hwithin, -, -, hside⟩
  · exact (horderly.neutral_of_isPrefix hdescends hrule hpath hplaced hwithin).2 hline
  · obtain rfl := eq_of_isPrefix hblank hplaced hwithin
    rcases hside with hleads | htrails
    · have hsite := Rule.hasSite_of_mem_active hrule hpath
      exact (horderly.anchored.neutral hdescends.shaped hsite hplaced hleads).2 hline
    · exact hdescends.holdsBreak_of_isSpace hplaced htrails.2.1

lemma lineAt_eq (hline : tree.HasLineDirective) {q q' : Path} (hq : edit.moved q = some q') :
    edit.tree.lineAt q' = tree.lineAt q := by
  have hsite := Rule.hasSite_of_mem_active (Or.inr ⟨true, rfl⟩) hpath
  rw [lineAt, lineAt, h.relocation.tokens]
  refine lineEndsBefore_relocate (fun placed hplaced => ?_)
    (fun placed hplaced => h.holdsBreak_of_gone hdescends horderly hpath hline hplaced)
    (fun _ _ _ _ hrow => h.holdsBreak_of_next hdescends horderly.anchored hline hsite hrow)
    fun placed _ r hmoved => h.relocation.precedes hmoved hq
  obtain ⟨c, w, htext, -⟩ := hdescends.sound _ (token_mem_leaves (sub?_of_mem_placedTokens hplaced))
  simp [htext]

/-- A place is switched off if it was before. -/
lemma off_iff {q q' : Path} (hq : edit.moved q = some q') (id : String) :
    edit.tree.Off id q' ↔ tree.Off id q := by
  have hdepth : ∀ word, edit.tree.depthAt word q' = tree.depthAt word q := by
    intro word
    rw [depthAt, depthAt, h.placedDirectives_eq]
    congr 1
    refine map_snd_filter_filterMap fun entry hentry => ?_
    obtain ⟨p, hp⟩ := h.exists_moved_of_directive hdescends horderly hpath hentry
    exact ⟨(p, entry.2), by simp [hp], rfl, decide_eq_decide.2 (h.relocation.precedes hp hq)⟩
  have hlines : ∀ {entry : Path × Directive} {scope : LineScope}, entry ∈ tree.placedDirectives →
      entry.2.action = .disableLine scope → ∀ {p}, edit.moved entry.1 = some p →
        (scope.Names (edit.tree.lineAt p) (edit.tree.lineAt q') ↔
          scope.Names (tree.lineAt entry.1) (tree.lineAt q)) := by
    intro entry scope hentry haction p hp
    have hline : tree.HasLineDirective := ⟨entry, hentry, by simp [haction, Action.lasts]⟩
    rw [h.lineAt_eq hdescends horderly hpath hline hq, h.lineAt_eq hdescends horderly hpath hline hp]
  simp only [Off, hdepth]
  refine exists_congr fun word => and_congr_right fun _ => or_congr_right ⟨?_, ?_⟩
  · rintro ⟨entry, hentry, scope, haction, hword, hnames⟩
    obtain ⟨p, hp, hmoved⟩ := h.exists_directive hentry
    exact ⟨(p, entry.2), hp, scope, haction, hword, (hlines hp haction hmoved).1 hnames⟩
  · rintro ⟨entry, hentry, scope, haction, hword, hnames⟩
    obtain ⟨p, hmoved⟩ := h.exists_moved_of_directive hdescends horderly hpath hentry
    refine ⟨(p, entry.2), ?_, scope, haction, hword, (hlines hentry haction hmoved).2 hnames⟩
    rw [h.placedDirectives_eq, List.mem_filterMap]
    exact ⟨entry, hentry, by simp [hmoved]⟩

/-- A clause that is taken out leaves one site less. -/
lemma sheds : Sheds path (fun q' q => edit.moved q = some q') tree edit.tree := by
  have hrule : (voidReturn true).IsBuiltin := Or.inr ⟨true, rfl⟩
  have hsite := Rule.hasSite_of_mem_active hrule hpath
  have hcleared := h.cleared hsite
  have hline : edit.tree.HasLineDirective → tree.HasLineDirective := by
    rintro ⟨entry, hentry, hlasts⟩
    obtain ⟨p, hp, -⟩ := h.exists_directive hentry
    exact ⟨(p, entry.2), hp, hlasts⟩
  refine ⟨hline, ?_, h.off_iff hdescends horderly hpath, fun hp hq => ?_, fun hrule q' hsite' => ?_, ?_⟩
  · intro q' _ hsite' placed' hplaced' hleads
    obtain ⟨placed, hplaced, hmoved, htoken⟩ := h.relocation.exists_token hplaced'
    obtain ⟨q, hq, -, hsiteq⟩ := hcleared.exists_origin hdescends hrule hsite'
    obtain ⟨r, hr, hleads⟩ := h.exists_leads hdescends hsite hplaced hmoved hq hsiteq hleads
    rw [← htoken]
    exact (horderly.anchored.neutral hdescends.shaped hr hplaced hleads).mono hline
  · simpa [hp] using hq
  · obtain ⟨q, hq, hne, hsiteq⟩ := hcleared.exists_origin hdescends hrule hsite'
    exact ⟨q, hq, by simpa using hne, hsiteq⟩
  · intro q' q hq placed' hplaced' hin
    obtain ⟨placed, hplaced, hmoved, htoken⟩ := h.relocation.exists_token hplaced'
    exact Or.inr ⟨placed, hplaced, (h.relocation.prefix_iff hq hmoved).1 hin, htoken⟩

end

end Edit.Clears

end SwiftTidy

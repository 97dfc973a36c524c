import SwiftTidy.Proofs.LineEnds
import SwiftTidy.Proofs.Settling
import SwiftTidy.Proofs.Surroundings

/-!
# Directives that stay in force

Corrections may drop a directive that stands in what they rewrite, and they may join lines, so that a directive for one
line comes to speak of another. A tree is orderly if this cannot happen: there is no directive in what is corrected or
right before a clause, nor a line break if there are directives for one line. In an orderly tree a site is switched off
exactly if the directives before it or for its line say so (`Rule.mem_active_iff`). Corrections keep the order of
directives and sites and the lines between them, and so they leave every site switched off that was.
-/

namespace SwiftTidy

open SwiftTidy.Tree Rules Rules.Expectation

/-- Whether an action holds until it is revoked. -/
def Action.lasts : Action → Bool
  | .disableLine _ => false
  | _ => true

/-- The directive that a token is. -/
def Token.directive? (token : Token) : Option Directive :=
  if token.kind.isComment then
    match Directive.ofComment token.text with
    | .ok (some directive) => some directive
    | _ => none
  else none

lemma Kind.isTrivia_of_isComment {kind : Kind} (h : kind.isComment = true) : kind.isTrivia = true := by
  unfold isComment at h
  split at h
  · rfl
  · rfl
  · simp at h

/-- The places of the sites of a rule that are not switched off. -/
def Rule.active (rule : Rule) (tree : Tree) : List Path :=
  rule.trail tree ((Regions.resolve (Source.ofTree tree)).forRule rule.id)

namespace Tree

/-- The directives of a tree with their places. -/
def placedDirectives (tree : Tree) : List (Path × Directive) :=
  tree.placedTokens.filterMap fun placed => placed.token.directive?.map (Prod.mk placed.path)

/-- There is a directive for one line. -/
def HasLineDirective (tree : Tree) : Prop := ∃ entry ∈ tree.placedDirectives, entry.2.action.lasts = false

instance (tree : Tree) : Decidable tree.HasLineDirective := inferInstanceAs (Decidable (∃ entry ∈ _, _))

/-- What the directives of a tree say does not hang on a token: it is no directive, and there is no line break in it if
there are directives for one line. -/
def Neutral (tree : Tree) (token : Token) : Prop :=
  token.directive? = none ∧ (tree.HasLineDirective → token.holdsBreak = false)

instance (tree : Tree) (token : Token) : Decidable (tree.Neutral token) := inferInstanceAs (Decidable (_ ∧ (_ → _)))

/-- The directives say of a clause what they say of the place where it is reported, at the end of the token before
it. -/
def Anchored (tree : Tree) : Prop :=
  ∀ path ∈ tree.nodePaths, (voidReturn true).HasSite tree path → ∀ placed ∈ tree.placedTokens,
    tree.Leads placed.path path → tree.Neutral placed.token

instance (tree : Tree) : Decidable tree.Anchored :=
  have (p q : Path) : Decidable (tree.Leads p q) := inferInstanceAs (Decidable (_ ∧ _))
  inferInstanceAs (Decidable (∀ path ∈ tree.nodePaths, _ → ∀ placed ∈ tree.placedTokens, _ → _))

/-- No correction changes what the directives of a tree say. What is corrected does not matter to them, nor does what
stands right before a clause. -/
structure Orderly (tree : Tree) : Prop where
  anchored : tree.Anchored
  neutral : ∀ path ∈ expectation.active tree ++ (voidReturn true).active tree, ∀ placed ∈ tree.placedTokens,
    path <+: placed.path → tree.Neutral placed.token

instance (tree : Tree) : Decidable tree.Orderly :=
  decidable_of_iff
    (tree.Anchored ∧ ∀ path ∈ expectation.active tree ++ (voidReturn true).active tree, ∀ placed ∈ tree.placedTokens,
      path <+: placed.path → tree.Neutral placed.token)
    ⟨fun h => ⟨h.1, h.2⟩, fun h => ⟨h.anchored, h.neutral⟩⟩

/-- How deep a word is switched off by the directives before a place. -/
def depthAt (tree : Tree) (word : String) (path : Path) : Nat :=
  Regions.depth word ((tree.placedDirectives.filter fun entry => Path.Precedes entry.1 path).map Prod.snd)

/-- A rule is switched off at a place. -/
def Off (tree : Tree) (id : String) (path : Path) : Prop :=
  ∃ word ∈ [id, Region.everyRule], 0 < tree.depthAt word path ∨
    ∃ entry ∈ tree.placedDirectives, ∃ scope, entry.2.action = .disableLine scope ∧ word ∈ entry.2.rules ∧
      scope.Names (tree.lineAt entry.1) (tree.lineAt path)

variable {tree : Tree}

lemma mem_placedDirectives {entry : Path × Directive} :
    entry ∈ tree.placedDirectives ↔
      ∃ placed ∈ tree.placedTokens, placed.path = entry.1 ∧ placed.token.directive? = some entry.2 := by
  obtain ⟨path, directive⟩ := entry
  simp only [placedDirectives, List.mem_filterMap, Option.map_eq_some_iff, Prod.mk.injEq]
  refine exists_congr fun placed => and_congr_right fun _ => ⟨?_, ?_⟩
  · rintro ⟨directive, hdirective, rfl, rfl⟩
    exact ⟨rfl, hdirective⟩
  · rintro ⟨rfl, hdirective⟩
    exact ⟨directive, hdirective, rfl, rfl⟩

lemma directives_eq (tree : Tree) :
    Regions.directives tree = tree.placedDirectives.map fun entry => (tree.startAt entry.1, entry.2) := by
  rw [Regions.directives, Regions.directivesIn, Regions.comments_eq, List.filterMap_map, placedDirectives,
    List.map_filterMap, ← List.filterMap_eq_filter, List.filterMap_filterMap]
  congr 1
  funext placed
  by_cases hcomment : placed.token.kind.isComment = true
  · cases hread : Directive.ofComment placed.token.text with
    | error problem => simp [Token.directive?, hcomment, hread]
    | ok directive? => cases directive? <;> simp [Token.directive?, hcomment, hread]
  · simp [Token.directive?, hcomment]

/-! ## First tokens -/

/-- An expression begins with a significant token, and what lies on the way down to it are expressions. -/
lemma Shaped.exists_first (tree : Tree) (hshaped : tree.Shaped) (hnode : tree.isNode = true)
    (hkind : tree.kind.isExpression = true) :
    ∃ n token, tree.sub? (List.replicate n 0) = some (.leaf token) ∧ token.isTrivia = false ∧
      ∀ m < n, ∃ kind children, tree.sub? (List.replicate m 0) = some (.node kind children) ∧
        kind.isExpression = true := by
  cases tree with
  | leaf token => simp [isNode] at hnode
  | node kind children =>
    have hkind : kind.isExpression = true := hkind
    obtain ⟨first, hbegins, hfirst⟩ := hshaped.begins
    have hcases : first = .token ∨ first = .expression := by
      cases kind <;> simp_all [Kind.begins, Kind.isExpression]
    rcases hcases with rfl | rfl
    · obtain ⟨token, rest, rfl, htoken⟩ := hfirst
      refine ⟨1, token, rfl, htoken, fun m hm => ?_⟩
      obtain rfl : m = 0 := by omega
      exact ⟨kind, _, rfl, hkind⟩
    · obtain ⟨inner, grand, rest, rfl, hinner⟩ := hfirst
      obtain ⟨n, token, htoken, htrivia, hway⟩ :=
        Shaped.exists_first (.node inner grand) (hshaped.child (by simp [Tree.children])) rfl hinner
      refine ⟨n + 1, token, htoken, htrivia, fun m hm => ?_⟩
      cases m with
      | zero => exact ⟨kind, _, rfl, hkind⟩
      | succ m => exact hway m (by omega)

lemma exists_placedTokens_eq_cons {n : Nat} {token : Token} (h : tree.sub? (List.replicate n 0) = some (.leaf token)) :
    ∃ first rest, tree.placedTokens = first :: rest ∧ first.token = token := by
  have hmem := mem_placedTokens_of_sub? h
  have hsorted := tree.pairwise_placedTokens
  cases hrow : tree.placedTokens with
  | nil => simp [hrow] at hmem
  | cons first rest =>
    rw [hrow] at hmem hsorted
    refine ⟨first, rest, rfl, ?_⟩
    rcases List.mem_cons.1 hmem with rfl | hmem
    · rfl
    · refine absurd ((List.pairwise_cons.1 hsorted).1 _ hmem) ?_
      rw [Placed.path_mk]
      exact Path.not_precedes_replicate _ n

lemma token_mem_leaves {token : Token} {p : Path} (h : tree.sub? p = some (.leaf token)) : token ∈ tree.leaves := by
  rw [← map_token_placedTokens]
  exact List.mem_map_of_mem (f := Placed.token) (mem_placedTokens_of_sub? h)

end Tree

namespace Rules

variable {tree : Tree} {rule : Rule} {p : Path} {closures : Bool}

lemma hasSite_closures (hshaped : tree.Shaped) (h : (voidReturn closures).HasSite tree p) :
    (voidReturn true).HasSite tree p := by
  rw [hasSite_voidReturn hshaped] at h ⊢
  obtain ⟨part, hpart, hvoid, hin⟩ := h
  refine ⟨part, hpart, hvoid, ?_⟩
  rw [VoidReturn.inClosure?] at hin ⊢
  split at hin <;> simp_all

namespace VoidReturn

/-- The token that is found before a part leads it, and so does what stands between the two. -/
lemma leads_of_significantBefore? {part : Tree} (hpart : tree.sub? p = some part) {last placed : Placed}
    (h : (tree.around p).significantBefore? = some last) (hbefore : Path.Precedes placed.path p)
    (hbehind : placed = last ∨ Path.Precedes last.path placed.path) : tree.Leads placed.path p := by
  refine ⟨hbefore, fun other hother hafter hahead => ?_⟩
  by_contra htrivia
  have hlast : Path.Precedes last.path other.path := by
    rcases hbehind with rfl | hbehind
    · exact hafter
    · exact hbehind.trans hafter
  rcases precedes_of_mem_walk hpart hother (by simpa using htrivia) hahead (Around.mem_walk_of_significantBefore? h) with
    rfl | hnear
  · exact Path.Precedes.irrefl _ hlast
  · exact hnear.asymm hlast

end VoidReturn

end Rules

namespace Rule

variable {rule : Rule} {tree : Tree} {p : Path}

lemma mem_nodePaths_of_hasSite (hrule : rule.IsBuiltin) (hshaped : tree.Shaped) (h : rule.HasSite tree p) :
    p ∈ tree.nodePaths := by
  obtain ⟨kind, children, hnode, -⟩ := kind_of_hasSite hrule hshaped h
  exact mem_nodePaths.2 ⟨kind, children, hnode⟩

/-- A site begins with a significant token. -/
lemma HasSite.exists_first (h : rule.HasSite tree p) (hrule : rule.IsBuiltin) (hshaped : tree.Shaped) :
    ∃ kind children first rest, tree.sub? p = some (.node kind children) ∧
      (Tree.node kind children).placedTokens = first :: rest ∧ first.isTrivia = false := by
  obtain ⟨kind, children, hpart, hkind⟩ := kind_of_hasSite hrule hshaped h
  have hleaf : ∃ n token, (Tree.node kind children).sub? (List.replicate n 0) = some (.leaf token) ∧
      token.isTrivia = false := by
    rcases hkind with rfl | ⟨rfl, -⟩
    · obtain ⟨token, rest, rfl, htrivia⟩ := (hshaped.sub? hpart).begins_token rfl
      exact ⟨1, token, rfl, htrivia⟩
    · obtain ⟨n, token, htoken, htrivia, -⟩ := Shaped.exists_first _ (hshaped.sub? hpart) rfl rfl
      exact ⟨n, token, htoken, htrivia⟩
  obtain ⟨n, token, hleaf, htrivia⟩ := hleaf
  obtain ⟨first, rest, hrow, rfl⟩ := exists_placedTokens_eq_cons hleaf
  exact ⟨kind, children, first, rest, hpart, hrow, htrivia⟩

/-- Trivia that do not stand before a site begin behind its beginning. -/
lemma HasSite.startAt_lt (h : rule.HasSite tree p) (hrule : rule.IsBuiltin) {text : String}
    (hdescends : Descends (tokensOf text) tree) {placed : Placed} (hplaced : placed ∈ tree.placedTokens)
    (htrivia : placed.isTrivia = true) (hbefore : ¬ Path.Precedes placed.path p) :
    tree.startAt p < tree.startAt placed.path := by
  obtain ⟨kind, children, first, rest, hpart, hrow, hfirst⟩ := h.exists_first hrule hdescends.shaped
  obtain ⟨front, back, htokens, hfront, hback, -⟩ := exists_tokens_split hpart
  rw [hrow, List.map_cons] at htokens
  have hbehind : Path.Precedes (first.under p).path placed.path := by
    have hsorted := tree.pairwise_placedTokens
    rw [htokens, List.append_assoc, List.cons_append, List.pairwise_append, List.pairwise_cons] at hsorted
    rw [htokens, List.append_assoc, List.cons_append, List.mem_append, List.mem_cons] at hplaced
    rcases hplaced with hplaced | rfl | hplaced
    · exact absurd (hfront placed hplaced) hbefore
    · have htrivia : first.isTrivia = true := htrivia
      simp [hfirst] at htrivia
    · exact hsorted.2.1.1 placed hplaced
  have hmem : first.under p ∈ tree.placedTokens := by simp [htokens]
  have hleaf := sub?_of_mem_placedTokens hmem
  have hpos := (hdescends.sound _ (token_mem_leaves hleaf)).width_pos
  have hle := startAt_add_width_le hbehind hleaf
  have hstart : tree.startAt p ≤ tree.startAt (first.under p).path := by
    rw [Placed.path_under, startAt_append hpart]
    omega
  rw [width] at hle
  omega

end Rule

/-! ## Sites that are switched off -/

namespace Tree

variable {tree : Tree} {p : Path} {entry : Path × Directive} {placed : Placed} {closures : Bool}

lemma Neutral.mono {tree later : Tree} {token : Token} (h : tree.Neutral token)
    (hline : later.HasLineDirective → tree.HasLineDirective) : later.Neutral token := ⟨h.1, h.2 ∘ hline⟩

lemma exists_of_mem_placedDirectives (h : entry ∈ tree.placedDirectives) :
    ∃ placed ∈ tree.placedTokens, placed.path = entry.1 ∧ placed.isTrivia = true ∧ ¬ tree.Neutral placed.token := by
  obtain ⟨placed, hplaced, hat, hdirective⟩ := mem_placedDirectives.1 h
  refine ⟨placed, hplaced, hat, ?_, fun hneutral => by simp [hneutral.1] at hdirective⟩
  rw [Token.directive?, Option.ite_none_right_eq_some] at hdirective
  exact Kind.isTrivia_of_isComment hdirective.1

lemma Anchored.neutral (h : tree.Anchored) (hshaped : tree.Shaped) (hsite : (voidReturn closures).HasSite tree p)
    (hplaced : placed ∈ tree.placedTokens) (hleads : tree.Leads placed.path p) : tree.Neutral placed.token :=
  h p (Rule.mem_nodePaths_of_hasSite (Or.inr ⟨closures, rfl⟩) hshaped hsite) (hasSite_closures hshaped hsite) placed
    hplaced hleads

lemma Anchored.not_leads (h : tree.Anchored) (hshaped : tree.Shaped) (hentry : entry ∈ tree.placedDirectives)
    (hsite : (voidReturn closures).HasSite tree p) : ¬ tree.Leads entry.1 p := by
  obtain ⟨placed, hplaced, hat, -, hnot⟩ := exists_of_mem_placedDirectives hentry
  rw [← hat]
  exact fun hleads => hnot (h.neutral hshaped hsite hplaced hleads)

end Tree

section Anchor

variable {text : String} {tree : Tree} {rule : Rule} {p : Path} {site : Site} {closures : Bool}
  {entry : Path × Directive}

lemma Rule.siteAt?_voidReturn (h : (voidReturn closures).siteAt? tree p = some site) :
    site.anchor = VoidReturn.anchor tree p ∧ ∃ part, tree.sub? p = some part := by
  obtain ⟨hanchor, part, -, hpart, -⟩ := anchor_voidReturn (siteAt?_eq_some_iff.1 h)
  exact ⟨hanchor, part, hpart⟩

lemma Rule.siteAt?_expectation (h : expectation.siteAt? tree p = some site) : site.anchor = tree.startAt p := by
  have hfound := siteAt?_eq_some_iff.1 h
  simp only [expectation, Expectation.find, Except.ok.injEq, Option.map_eq_some_iff] at hfound
  obtain ⟨chain, -, rfl⟩ := hfound
  rfl

lemma Rule.anchor_le_startAt (hrule : rule.IsBuiltin) (h : rule.siteAt? tree p = some site) :
    site.anchor ≤ tree.startAt p := by
  rcases hrule with rfl | ⟨closures, rfl⟩
  · exact (siteAt?_expectation h).le
  · obtain ⟨hanchor, part, hpart⟩ := siteAt?_voidReturn h
    rw [hanchor]
    exact VoidReturn.anchor_le_startAt hpart

/-- A directive before a site begins before the place where the site is reported. -/
lemma Tree.Anchored.startAt_lt_anchor (hanchored : tree.Anchored) (hdescends : Descends (tokensOf text) tree)
    (hrule : rule.IsBuiltin) (hsite : rule.siteAt? tree p = some site) (hentry : entry ∈ tree.placedDirectives)
    (hbefore : Path.Precedes entry.1 p) : tree.startAt entry.1 < site.anchor := by
  obtain ⟨placed, hplaced, hpath, -⟩ := mem_placedDirectives.1 hentry
  have hleaf := sub?_of_mem_placedTokens hplaced
  have hpos := (hdescends.sound _ (token_mem_leaves hleaf)).width_pos
  have hend : ∀ {q}, Path.Precedes entry.1 q → tree.startAt entry.1 < tree.startAt q := by
    intro q hq
    rw [← hpath] at hq ⊢
    have := startAt_add_width_le hq hleaf
    rw [width] at this
    omega
  rcases hrule with rfl | ⟨closures, rfl⟩
  · rw [Rule.siteAt?_expectation hsite]
    exact hend hbefore
  · obtain ⟨hanchor, part, hpart⟩ := Rule.siteAt?_voidReturn hsite
    rw [hanchor, VoidReturn.anchor]
    cases hlast : (tree.around p).significantBefore? with
    | none => exact hend hbefore
    | some last =>
      -- a significant token stands between the directive and the clause
      have hhas : (voidReturn closures).HasSite tree p := by simp [Rule.HasSite, hsite]
      have hnot := hanchored.not_leads hdescends.shaped hentry hhas
      simp only [Leads, hbefore, true_and, not_forall] at hnot
      obtain ⟨other, hother, hbehind, hin, htrivia⟩ := hnot
      have hnear := precedes_of_mem_walk hpart hother (by simpa using htrivia) hin
        (Around.mem_walk_of_significantBefore? hlast)
      have hle : tree.startAt other.path ≤ tree.startAt last.path := by
        rcases hnear with rfl | hnear
        · exact le_rfl
        · have := startAt_add_width_le hnear (sub?_of_mem_placedTokens hother)
          omega
      have := hend hbehind
      simp only
      omega

lemma Rule.anchor_lt_startAt (hdescends : Descends (tokensOf text) tree) (hrule : rule.IsBuiltin)
    (hsite : rule.siteAt? tree p = some site) (hentry : entry ∈ tree.placedDirectives)
    (hbefore : ¬ Path.Precedes entry.1 p) : site.anchor < tree.startAt entry.1 := by
  obtain ⟨placed, hplaced, hat, htrivia, -⟩ := exists_of_mem_placedDirectives hentry
  have hhas : rule.HasSite tree p := by simp [Rule.HasSite, hsite]
  rw [← hat] at hbefore ⊢
  exact (anchor_le_startAt hrule hsite).trans_lt (hhas.startAt_lt hrule hdescends hplaced htrivia hbefore)

/-- The tokens of a tree on either side of an offset. It is on the line of a place, before the place, and not within a
line end. -/
structure Tree.Cut (tree : Tree) (p : Path) (offset : Nat) (front back : List Placed) : Prop where
  tokens : tree.placedTokens = front ++ back
  offset_eq : offset = Text.byteLength (Placed.chars front)
  precedes : ∀ placed ∈ front, Path.Precedes placed.path p
  unbroken : ∀ placed ∈ back, Path.Precedes placed.path p → placed.token.holdsBreak = false
  apart : (Placed.chars front).getLast? = some '\r' → (Placed.chars back).head? ≠ some '\n'

/-- A site begins on its line. -/
lemma Rule.HasSite.exists_cut_startAt (hsite : rule.HasSite tree p) (hrule : rule.IsBuiltin)
    (hdescends : Descends (tokensOf text) tree) : ∃ front back, tree.Cut p (tree.startAt p) front back := by
  obtain ⟨kind, children, first, rest, hpart, hrow, htrivia⟩ := hsite.exists_first hrule hdescends.shaped
  obtain ⟨front, back, htokens, hfront, hback, hstart⟩ := exists_tokens_split hpart
  refine ⟨front, _, htokens.trans (List.append_assoc _ _ _), hstart, hfront, ?_, fun _ hfeed => ?_⟩
  · intro placed hplaced hbefore
    exfalso
    rcases List.mem_append.1 hplaced with hplaced | hplaced
    · obtain ⟨inner, -, rfl⟩ := List.mem_map.1 hplaced
      exact hbefore.apart.2 (by simp)
    · exact hbefore.asymm (hback placed hplaced)
  · -- a significant token does not begin with a line break
    have hmem : first.under p ∈ tree.placedTokens := by simp [htokens, hrow]
    obtain ⟨c, w, htext, hblank, -⟩ := hdescends.sound _ (token_mem_leaves (sub?_of_mem_placedTokens hmem))
    rw [hrow, List.map_cons, List.cons_append, Placed.chars_cons, htext] at hfeed
    obtain rfl : c = '\n' := by simpa using hfeed
    have hisBlank : (first.under p).isBlank = true := hblank.trans (by decide)
    have htrivia' : first.isTrivia = true := Placed.isTrivia_of_isBlank hisBlank
    simp [htrivia] at htrivia'

variable (hanchored : tree.Anchored) (hdescends : Descends (tokensOf text) tree)

include hanchored hdescends

/-- A clause without line breaks before it is on the line of the token before it. -/
lemma Tree.Anchored.exists_cut_before (hline : tree.HasLineDirective) (hsite : (voidReturn closures).HasSite tree p)
    {last : Placed} (hlast : (tree.around p).significantBefore? = some last) :
    ∃ front back, tree.Cut p (tree.startAt last.path + last.token.width) front back := by
  obtain ⟨part, hpart, -⟩ := (hasSite_voidReturn hdescends.shaped).1 hsite
  obtain ⟨hmem, hbefore⟩ := mem_walk_before hpart (Around.mem_walk_of_significantBefore? hlast)
  have hbreak : ∀ placed ∈ tree.placedTokens, Path.Precedes placed.path p →
      placed = last ∨ Path.Precedes last.path placed.path → placed.token.holdsBreak = false :=
    fun placed hplaced hahead hbehind => (hanchored.neutral hdescends.shaped hsite hplaced
      (VoidReturn.leads_of_significantBefore? hpart hlast hahead hbehind)).2 hline
  obtain ⟨front, back, htokens, hfront, hback, hstart⟩ := exists_tokens_split (sub?_of_mem_placedTokens hmem)
  have hsame : (Tree.leaf last.token).placedTokens.map (Placed.under last.path) = [last] := by
    simp [Placed.under]
  rw [hsame] at htokens
  refine ⟨front ++ [last], back, htokens, ?_, ?_, ?_, ?_⟩
  · rw [Placed.chars_append, Text.byteLength_append, hstart]
    simp [Text.byteLength_toList, Token.width]
  · intro placed hplaced
    rcases List.mem_append.1 hplaced with hplaced | hplaced
    · exact (hfront placed hplaced).trans hbefore
    · rwa [List.mem_singleton.1 hplaced]
  · intro placed hplaced hahead
    exact hbreak placed (by simp [htokens, hplaced]) hahead (Or.inr (hback placed hplaced))
  · intro hreturn
    exfalso
    obtain ⟨c, w, htext, -⟩ := hdescends.sound _ (token_mem_leaves (sub?_of_mem_placedTokens hmem))
    have hmemReturn : '\r' ∈ last.token.text.toList := by
      refine List.mem_of_getLast? ?_
      rw [← hreturn, Placed.chars_append, List.getLast?_append, Placed.chars_cons, Placed.chars_nil, List.append_nil,
        htext, List.getLast?_cons]
      rfl
    have := Token.holdsBreak_eq_false_iff.1 (hbreak last hmem hbefore (Or.inl rfl)) _ hmemReturn
    simp [Text.isLineBreak] at this

lemma Tree.Anchored.exists_cut_anchor (hline : tree.HasLineDirective) (hrule : rule.IsBuiltin)
    (hsite : rule.siteAt? tree p = some site) : ∃ front back, tree.Cut p site.anchor front back := by
  have hhas : rule.HasSite tree p := by simp [Rule.HasSite, hsite]
  rcases hrule with rfl | ⟨closures, rfl⟩
  · rw [Rule.siteAt?_expectation hsite]
    exact hhas.exists_cut_startAt (Or.inl rfl) hdescends
  · obtain ⟨hanchor, -⟩ := Rule.siteAt?_voidReturn hsite
    rw [hanchor, VoidReturn.anchor]
    cases hlast : (tree.around p).significantBefore? with
    | none => exact hhas.exists_cut_startAt (Or.inr ⟨closures, rfl⟩) hdescends
    | some last => exact hanchored.exists_cut_before hdescends hline hhas hlast

/-- A directive for one line speaks of the sites on this line. -/
lemma Tree.Anchored.onLine_iff (hrule : rule.IsBuiltin) (hsite : rule.siteAt? tree p = some site)
    (hentry : entry ∈ tree.placedDirectives) {scope : LineScope} (haction : entry.2.action = .disableLine scope) :
    Regions.OnLine (Source.ofTree tree).lines scope (tree.startAt entry.1) site.anchor ↔
      scope.Names (tree.lineAt entry.1) (tree.lineAt p) := by
  have hline : tree.HasLineDirective := ⟨entry, hentry, by simp [haction, Action.lasts]⟩
  obtain ⟨front, back, hcut⟩ := hanchored.exists_cut_anchor hdescends hline hrule hsite
  obtain ⟨placed, hplaced, hat, -⟩ := mem_placedDirectives.1 hentry
  have hchars : (Source.ofTree tree).lines.chars = Placed.chars front ++ Placed.chars back := by
    rw [← Placed.chars_append, ← hcut.tokens, chars_placedTokens]
    rfl
  rw [hcut.offset_eq, Regions.onLine_iff hchars hcut.apart, ← hat, line_startAt (sub?_of_mem_placedTokens hplaced),
    LineScope.names_succ, ← lineEndsBefore_append hcut.precedes hcut.unbroken, ← hcut.tokens, lineAt, lineAt]

/-- A site is switched off exactly if the directives before it or for its line say so. -/
lemma Tree.Anchored.covers_iff (hrule : rule.IsBuiltin) (hsite : rule.siteAt? tree p = some site) (id : String) :
    Region.covers ((Regions.resolve (Source.ofTree tree)).forRule id) site.anchor = true ↔ tree.Off id p := by
  have hhas : rule.HasSite tree p := by simp [Rule.HasSite, hsite]
  have hwidth : site.anchor ≤ tree.width := by
    obtain ⟨kind, children, hnode, -⟩ := kind_of_hasSite hrule hdescends.shaped hhas
    have := Rule.anchor_le_startAt hrule hsite
    have := startAt_add_width_le_width hnode
    omega
  rw [Regions.covers_forRule_iff (Source.ofTree tree) id hwidth, Off]
  refine exists_congr fun word => and_congr_right fun _ => ?_
  rw [Regions.told_iff, Source.ofTree, directives_eq]
  have hdepth : (((tree.placedDirectives.map fun entry => (tree.startAt entry.1, entry.2)).filter
      fun entry => entry.1 < site.anchor).map Prod.snd) =
      (tree.placedDirectives.filter fun entry => Path.Precedes entry.1 p).map Prod.snd := by
    rw [List.filter_map, List.map_map]
    congr 1
    refine List.filter_congr fun entry hentry => ?_
    by_cases hbefore : Path.Precedes entry.1 p
    · simpa [hbefore] using hanchored.startAt_lt_anchor hdescends hrule hsite hentry hbefore
    · simpa [hbefore] using (Rule.anchor_lt_startAt hdescends hrule hsite hentry hbefore).le
  have happart : ¬ ∃ entry ∈ tree.placedDirectives.map fun entry => (tree.startAt entry.1, entry.2),
      entry.1 = site.anchor ∧ entry.2.action = .disable ∧ word ∈ entry.2.rules := by
    rintro ⟨entry, hentry, hat, -⟩
    obtain ⟨placed, hplaced, rfl⟩ := List.mem_map.1 hentry
    by_cases hbefore : Path.Precedes placed.1 p
    · exact absurd hat (hanchored.startAt_lt_anchor hdescends hrule hsite hplaced hbefore).ne
    · exact absurd hat (Rule.anchor_lt_startAt hdescends hrule hsite hplaced hbefore).ne'
  rw [hdepth, ← depthAt, or_iff_right happart]
  refine or_congr_right ?_
  simp only [List.mem_map, exists_exists_and_eq_and]
  refine exists_congr fun entry => and_congr_right fun hentry => exists_congr fun scope => ?_
  refine and_congr_right fun haction => and_congr_right fun _ => ?_
  exact hanchored.onLine_iff hdescends hrule hsite hentry haction

end Anchor

section Active

variable {text : String} {tree : Tree} {rule : Rule} {p : Path}

lemma Rule.mem_active_iff (hanchored : tree.Anchored) (hdescends : Descends (tokensOf text) tree)
    (hrule : rule.IsBuiltin) : p ∈ rule.active tree ↔ rule.HasSite tree p ∧ ¬ tree.Off rule.id p := by
  rw [active, mem_trail_iff hrule hdescends.shaped, HasSite, Option.isSome_iff_exists]
  constructor
  · rintro ⟨site, hsite, hfree⟩
    refine ⟨⟨site, hsite⟩, fun hoff => ?_⟩
    rw [(hanchored.covers_iff hdescends hrule hsite rule.id).2 hoff] at hfree
    simp at hfree
  · rintro ⟨⟨site, hsite⟩, hoff⟩
    refine ⟨site, hsite, ?_⟩
    rw [← Bool.not_eq_true, hanchored.covers_iff hdescends hrule hsite rule.id]
    exact hoff

lemma Rule.hasSite_of_mem_active (hrule : rule.IsBuiltin) (h : p ∈ rule.active tree) : rule.HasSite tree p :=
  hasSite_of_mem_trail hrule h

lemma Rule.mem_active_closures (hanchored : tree.Anchored) (hdescends : Descends (tokensOf text) tree) {closures : Bool}
    (h : p ∈ (voidReturn closures).active tree) : p ∈ (voidReturn true).active tree := by
  rw [mem_active_iff hanchored hdescends (Or.inr ⟨closures, rfl⟩)] at h
  exact (mem_active_iff hanchored hdescends (Or.inr ⟨true, rfl⟩)).2 ⟨hasSite_closures hdescends.shaped h.1, h.2⟩

namespace Tree.Orderly

variable (h : tree.Orderly) (hdescends : Descends (tokensOf text) tree) (hrule : rule.IsBuiltin)
  (hp : p ∈ rule.active tree)

include h hdescends hrule hp

lemma neutral_of_isPrefix {placed : Placed} (hplaced : placed ∈ tree.placedTokens) (hwithin : p <+: placed.path) :
    tree.Neutral placed.token := by
  refine h.neutral p (List.mem_append.2 ?_) placed hplaced hwithin
  rcases hrule with rfl | ⟨closures, rfl⟩
  · exact Or.inl hp
  · exact Or.inr (Rule.mem_active_closures h.anchored hdescends hp)

lemma not_isPrefix {entry : Path × Directive} (hentry : entry ∈ tree.placedDirectives) : ¬ p <+: entry.1 := by
  obtain ⟨placed, hplaced, hat, -, hnot⟩ := exists_of_mem_placedDirectives hentry
  rw [← hat]
  exact fun hwithin => hnot (h.neutral_of_isPrefix hdescends hrule hp hplaced hwithin)

end Tree.Orderly

end Active

end SwiftTidy

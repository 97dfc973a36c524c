import SwiftTidy.Proofs.Pruning
import SwiftTidy.Rule.Correct

/-!
# The sites of a pass

The sites of a rule are nodes of the tree, each at most once. A pass takes them in an order in which no site
comes after one that it lies in, so what a pass keeps from site to site may suppose that nothing around the
next site has been dealt with yet (`Rule.correct_induction`).
-/

namespace SwiftTidy

namespace Tree

/-! ## Nodes and where they begin -/

lemma mem_nodePaths {tree : Tree} {p : Path} :
    p ∈ tree.nodePaths ↔ ∃ kind children, tree.sub? p = some (.node kind children) := by
  rw [nodePaths_eq_parts, List.mem_filterMap]
  constructor
  · rintro ⟨⟨q, t⟩, hmem, hq⟩
    cases t with
    | leaf token => simp [Part.nodePath?, isNode] at hq
    | node kind children =>
      simp only [Part.nodePath?, isNode, if_true, Option.some.injEq] at hq
      subst hq
      exact ⟨kind, children, mem_parts.1 hmem⟩
  · rintro ⟨kind, children, h⟩
    exact ⟨⟨p, .node kind children⟩, mem_parts.2 h, by simp [Part.nodePath?, isNode]⟩

lemma startAt_le_of_isPrefix {p q : Path} (h : p <+: q) (tree : Tree) : tree.startAt p ≤ tree.startAt q := by
  induction p generalizing q tree with
  | nil => simp [startAt]
  | cons i p ih =>
    cases q with
    | nil => simp at h
    | cons j q =>
      obtain ⟨rfl, htail⟩ := List.cons_prefix_cons.1 h
      cases tree with
      | leaf token => simp [startAt]
      | node kind children =>
        rw [startAt, startAt]
        cases children[i]? with
        | none => simp
        | some child =>
          have := ih htail child
          simp only
          omega

end Tree

namespace Rule

variable {rule : Rule} {tree : Tree} {regions : List Region}

/-- The sites that a rule finds are the nodes that it looks at. -/
def FindsInPlace (rule : Rule) : Prop :=
  ∀ {tree path site}, rule.check.find tree path = .ok (some site) → site.path = path

/-- The site that a rule finds at a path. -/
def siteAt? (rule : Rule) (tree : Tree) (path : Path) : Option Site :=
  (Error.skip (rule.check.find tree path)).join

lemma siteAt?_eq_some_iff {path : Path} {site : Site} :
    rule.siteAt? tree path = some site ↔ rule.check.find tree path = .ok (some site) := by
  cases h : rule.check.find tree path <;> simp [siteAt?, h, Error.skip]

lemma sites_perm (rule : Rule) (tree : Tree) (regions : List Region) :
    (rule.sites tree regions).Perm
      ((tree.nodePaths.filterMap (rule.siteAt? tree)).filter fun site => !Region.covers regions site.anchor) :=
  List.mergeSort_perm _ _

lemma mem_sites {site : Site} :
    site ∈ rule.sites tree regions ↔
      (∃ path ∈ tree.nodePaths, rule.check.find tree path = .ok (some site)) ∧
        Region.covers regions site.anchor = false := by
  simp [(sites_perm rule tree regions).mem_iff, siteAt?_eq_some_iff]

lemma pairwise_anchor_sites (rule : Rule) (tree : Tree) (regions : List Region) :
    (rule.sites tree regions).Pairwise fun a b => a.anchor ≤ b.anchor := by
  refine (List.pairwise_mergeSort ?_ ?_ _).imp of_decide_eq_true
  · simp only [decide_eq_true_eq]
    exact fun a b c => Nat.le_trans
  · simp only [Bool.or_eq_true, decide_eq_true_eq]
    exact fun a b => Nat.le_total _ _

/-- No two sites are at one place. -/
lemma nodup_paths_sites (hfind : rule.FindsInPlace) : ((rule.sites tree regions).map Site.path).Nodup := by
  rw [((sites_perm rule tree regions).map Site.path).nodup_iff]
  have hsub : ∀ paths : List Path, ((paths.filterMap (rule.siteAt? tree)).map Site.path).Sublist paths := by
    intro paths
    induction paths with
    | nil => simp
    | cons path rest ih =>
      cases h : rule.siteAt? tree path with
      | none =>
        rw [List.filterMap_cons_none h]
        exact ih.trans (List.sublist_cons_self _ _)
      | some site =>
        rw [List.filterMap_cons_some h, List.map_cons, hfind (siteAt?_eq_some_iff.1 h)]
        exact ih.cons_cons _
  exact tree.nodup_nodePaths.sublist ((List.filter_sublist.map Site.path).trans (hsub _))

/-! ## The order of a pass -/

lemma fixesBefore_trans (tree : Tree) (a b c : Site) :
    fixesBefore tree a b = true → fixesBefore tree b c = true → fixesBefore tree a c = true := by
  simp only [fixesBefore, Bool.or_eq_true, decide_eq_true_eq, Bool.and_eq_true, beq_iff_eq]
  omega

lemma fixesBefore_total (tree : Tree) (a b : Site) :
    (fixesBefore tree a b || fixesBefore tree b a) = true := by
  simp only [fixesBefore, Bool.or_eq_true, decide_eq_true_eq, Bool.and_eq_true, beq_iff_eq]
  omega

lemma eq_of_fixesBefore {a b : Site} (h : fixesBefore tree a b = true) (hwithin : a.path <+: b.path) :
    a.path = b.path := by
  have hstart := Tree.startAt_le_of_isPrefix hwithin tree
  simp only [fixesBefore, Bool.or_eq_true, decide_eq_true_eq, Bool.and_eq_true, beq_iff_eq] at h
  exact hwithin.eq_of_length_le (by omega)

/-- The sites of a rule in the order of a pass. -/
def order (rule : Rule) (tree : Tree) (regions : List Region) : List Site :=
  (rule.sites tree regions).mergeSort (fixesBefore tree)

/-- The places that a pass has been at in the end, the last one first. -/
def trail (rule : Rule) (tree : Tree) (regions : List Region) : List Path :=
  (rule.order tree regions).reverse.map Site.path

/-- What is recorded for a site that is corrected. -/
def correction (rule : Rule) (lines : Lines) (site : Site) : Correction := ⟨rule.id, lines.position site.anchor⟩

lemma order_perm (rule : Rule) (tree : Tree) (regions : List Region) :
    (rule.order tree regions).Perm (rule.sites tree regions) := List.mergeSort_perm _ _

lemma pairwise_order (rule : Rule) (tree : Tree) (regions : List Region) :
    (rule.order tree regions).Pairwise fun a b => fixesBefore tree a b = true :=
  List.pairwise_mergeSort (fixesBefore_trans tree) (fixesBefore_total tree) _

lemma mem_trail {p : Path} : p ∈ rule.trail tree regions ↔ ∃ site ∈ rule.sites tree regions, site.path = p := by
  simp [trail, (order_perm rule tree regions).mem_iff]

lemma length_trail (rule : Rule) (tree : Tree) (regions : List Region) :
    (rule.trail tree regions).length = (rule.sites tree regions).length := by
  simp [trail, (order_perm rule tree regions).length_eq]

/-- What holds at the beginning of a pass and is kept from site to site, no site being dealt with after one that
it lies in, holds at the end for all sites. -/
theorem correct_induction (tree : Tree) (regions : List Region) (hfind : rule.FindsInPlace) (lines : Lines)
    (motive : List Site → Pass → Prop) (init : motive [] ⟨tree, some, []⟩)
    (step : ∀ done pass site, site ∈ rule.sites tree regions → (∀ other ∈ done, ¬ other.path <+: site.path) →
      motive done pass → motive (site :: done) (rule.correctSite lines pass site)) :
    motive (rule.order tree regions).reverse
      ((rule.order tree regions).foldl (rule.correctSite lines) ⟨tree, some, []⟩) := by
  have hperm := order_perm rule tree regions
  have hsorted := pairwise_order rule tree regions
  have hnodup := (hperm.map Site.path).nodup_iff.2 (nodup_paths_sites hfind)
  have hmem : ∀ site ∈ rule.order tree regions, site ∈ rule.sites tree regions := fun site h => hperm.mem_iff.1 h
  generalize rule.order tree regions = order at hsorted hnodup hmem ⊢
  -- the sites that are left come after those that are done
  suffices hrun : ∀ (left done : List Site) (pass : Pass),
      (∀ site ∈ left, site ∈ rule.sites tree regions) → left.Pairwise (fun a b => fixesBefore tree a b = true) →
      (left.map Site.path).Nodup → (∀ other ∈ done, ∀ site ∈ left, ¬ other.path <+: site.path) → motive done pass →
      motive (left.reverse ++ done) (left.foldl (rule.correctSite lines) pass) by
    simpa using hrun order [] _ hmem hsorted hnodup (by simp) init
  intro left
  induction left with
  | nil => exact fun done pass _ _ _ _ h => h
  | cons site left ih =>
    intro done pass hleft hsorted hnodup houter h
    rw [List.pairwise_cons] at hsorted
    rw [List.map_cons, List.nodup_cons] at hnodup
    have houter₁ : ∀ other ∈ site :: done, ∀ next ∈ left, ¬ other.path <+: next.path := by
      intro other hother next hnext hwithin
      rcases List.mem_cons.1 hother with rfl | hother
      · have heq := eq_of_fixesBefore (hsorted.1 next hnext) hwithin
        exact hnodup.1 (heq ▸ List.mem_map_of_mem hnext)
      · exact houter other hother next (by simp [hnext]) hwithin
    rw [List.reverse_cons, List.append_assoc, List.singleton_append, List.foldl_cons]
    exact ih (site :: done) (rule.correctSite lines pass site) (fun other h => hleft other (by simp [h])) hsorted.2
      hnodup.2 houter₁
      (step done pass site (hleft site (by simp)) (fun other hother => houter other hother site (by simp)) h)

end Rule

end SwiftTidy

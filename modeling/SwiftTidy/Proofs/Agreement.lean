import SwiftTidy.Proofs.Boundaries
import SwiftTidy.Proofs.Seams
import Mathlib.Data.List.Sort

/-!
# Reports and corrections agree

A report lists the sites of a rule by the offsets at which they are reported, a pass goes through them by the
offsets at which they begin. Both lists have the same positions in the same order
(`Rule.anchors_order_eq`): no site is passed over, and what begins later is not reported earlier. For a return
clause the second part takes an argument, as it is reported at the end of the token before it.
-/

namespace SwiftTidy

open SwiftTidy.Tree

/-! ## Walking back -/

namespace Slot

/-- The first significant token of a walk is met in the first part of the way, or it is that of the rest. -/
lemma find?_walk_append {more slots : List Slot} {x : Placed}
    (h : (walk (more ++ slots)).find? (fun placed => !placed.isTrivia) = some x) :
    x ∈ more.filterMap placed? ∨ (walk slots).find? (fun placed => !placed.isTrivia) = some x := by
  induction more with
  | nil => exact Or.inr h
  | cons slot more ih =>
    rw [List.cons_append, walk] at h
    cases hplaced : slot.placed? with
    | none => simp [hplaced] at h
    | some placed =>
      rw [List.filterMap_cons_some hplaced]
      simp only [hplaced] at h
      by_cases htrivia : placed.isTrivia = true
      · have hkind : placed.token.isTrivia = true := htrivia
        rw [if_pos hkind, List.find?_cons_of_neg (by simp [htrivia])] at h
        exact (ih h).imp_left (List.mem_cons_of_mem _)
      · have hkind : ¬ placed.token.isTrivia = true := htrivia
        rw [if_neg hkind, List.find?_singleton] at h
        simp only [htrivia, Bool.not_false, if_true, Option.some.injEq] at h
        exact Or.inl (by simp [h])

end Slot

namespace Tree

/-- A place begins at or behind another one. -/
def AtOrBehind (p q : Path) : Prop := p <+: q ∨ Path.Precedes p q

variable {p q : Path} {tree part : Tree}

lemma AtOrBehind.startAt_le (h : AtOrBehind p q) (hpart : tree.sub? p = some part) :
    tree.startAt p ≤ tree.startAt q := by
  rcases h with h | h
  · exact startAt_le_of_isPrefix h tree
  · have := startAt_add_width_le h hpart
    omega

/-- What stands before a place also stands before what begins behind it, with more in between. -/
lemma AtOrBehind.exists_before_eq {inner : Tree} (h : AtOrBehind p q) (hp : tree.sub? p = some part)
    (hq : tree.sub? q = some inner) :
    ∃ more, (tree.around q).before = more ++ (tree.around p).before ∧ ∀ slot ∈ more, AtOrBehind p slot.path := by
  obtain ⟨before, after, hslots, haround, -, hbefore, hafter⟩ := exists_around hp
  have hahead : ∀ slot ∈ before, Path.Precedes slot.path q := by
    intro slot hslot
    rcases h with ⟨r, rfl⟩ | h
    · simpa using (hbefore slot hslot).append [] r
    · exact (hbefore slot hslot).trans h
  refine ⟨((part.slots.map (Slot.under p) ++ after).filter (Path.Precedes ·.path q)).reverse, ?_, fun slot hslot => ?_⟩
  · rw [around_eq_filter hq, haround, hslots, List.append_assoc, List.filter_append, (filter_of_ahead hahead).1,
      List.reverse_append]
  · rcases List.mem_append.1 (List.mem_of_mem_filter (List.mem_reverse.1 hslot)) with hin | hin
    · obtain ⟨below, -, rfl⟩ := List.mem_map.1 hin
      exact Or.inl (by simp)
    · exact Or.inr (hafter slot hin)

lemma width_le_of_firstToken? {token : Token} (h : tree.firstToken? = some token) :
    token ∈ tree.leaves ∧ token.width ≤ tree.width := by
  induction tree using firstToken?.induct with
  | case1 other =>
    obtain rfl : other = token := by simpa [firstToken?] using h
    simp [width]
  | case2 => simp [firstToken?] at h
  | case3 kind child rest ih =>
    rw [firstToken?] at h
    obtain ⟨hmem, hwidth⟩ := ih h
    rw [leaves_node, leavesOf_cons, width, widthOf]
    exact ⟨by simp [hmem], by omega⟩

end Tree

/-! ## Anchors -/

namespace Rules

variable {tree : Tree} {closures : Bool}

/-- Where a return clause is reported: at the end of the significant token before it. -/
def VoidReturn.anchor (tree : Tree) (path : Path) : Nat :=
  match (tree.around path).significantBefore? with
  | some previous => tree.startAt previous.path + previous.token.width
  | none => tree.startAt path

lemma anchor_voidReturn {path : Path} {site : Site} (h : (voidReturn closures).check.find tree path = .ok (some site)) :
    site.anchor = VoidReturn.anchor tree path ∧
      ∃ part token, tree.sub? path = some part ∧ part.firstToken? = some token := by
  simp only [voidReturn, VoidReturn.check, VoidReturn.find] at h
  split at h
  next clause inClosure hclause hin =>
    split at h
    next hvoid =>
      split at h
      · simp at h
      · next token htoken =>
        obtain ⟨part, hpart, rfl⟩ := Option.map_eq_some_iff.1 hclause
        simp only [Except.ok.injEq, Option.some.injEq] at h
        exact ⟨by rw [← h]; rfl, part, token, hpart, htoken⟩
    next => simp at h
  next => simp at h

namespace VoidReturn

lemma anchor_le_startAt {path : Path} {part : Tree} (hpart : tree.sub? path = some part) :
    anchor tree path ≤ tree.startAt path := by
  rw [anchor]
  split
  next previous hprevious =>
    obtain ⟨hmem, hbefore⟩ := mem_walk_before hpart (Around.mem_walk_of_significantBefore? hprevious)
    exact startAt_add_width_le hbefore (sub?_of_mem_placedTokens hmem)
  next => exact le_rfl

/-- What begins behind a clause is not reported before it. -/
lemma anchor_le_anchor {p q : Path} {part inner : Tree} (h : AtOrBehind p q) (hp : tree.sub? p = some part)
    (hq : tree.sub? q = some inner) : anchor tree p ≤ anchor tree q := by
  obtain ⟨more, hmore, hbehind⟩ := h.exists_before_eq hp hq
  have hle := anchor_le_startAt hp
  cases hlast : (tree.around q).significantBefore? with
  | none =>
    have hstart := h.startAt_le hp
    have : anchor tree q = tree.startAt q := by simp [anchor, hlast]
    omega
  | some x =>
    have hanchor : anchor tree q = tree.startAt x.path + x.token.width := by simp [anchor, hlast]
    have hfind := hlast
    rw [Around.significantBefore?, hmore] at hfind
    rcases Slot.find?_walk_append hfind with hx | hx
    · obtain ⟨slot, hslot, hplaced⟩ := List.mem_filterMap.1 hx
      have hstart := (hbehind slot hslot).startAt_le hp
      rw [← Slot.path_of_placed? hplaced] at hstart
      omega
    · -- the same token stands before both places
      have hsame : (tree.around p).significantBefore? = some x := hx
      simp [anchor, hsame, hlast]

end VoidReturn

end Rules

open Rules

/-! ## Both orders -/

namespace Rule

variable {rule : Rule} {tree : Tree} {regions : List Region}

/-- What a pass deals with first is not reported before what it deals with later. -/
def AnchorsFollow (rule : Rule) (tree : Tree) : Prop :=
  ∀ regions, ∀ a ∈ rule.sites tree regions, ∀ b ∈ rule.sites tree regions, fixesBefore tree a b = true →
    b.anchor ≤ a.anchor

lemma anchorsFollow_expectation (tree : Tree) : expectation.AnchorsFollow tree := by
  have hanchor : ∀ regions, ∀ site ∈ expectation.sites tree regions, site.anchor = tree.startAt site.path := by
    intro regions site hsite
    obtain ⟨⟨path, -, hfound⟩, -⟩ := mem_sites.1 hsite
    simp only [expectation, Expectation.find, Except.ok.injEq, Option.map_eq_some_iff] at hfound
    obtain ⟨chain, -, rfl⟩ := hfound
    rfl
  intro regions a ha b hb hbefore
  rw [hanchor regions a ha, hanchor regions b hb]
  simp only [fixesBefore, Bool.or_eq_true, decide_eq_true_eq, Bool.and_eq_true, beq_iff_eq] at hbefore
  omega

lemma anchorsFollow_voidReturn {closures : Bool} (hsound : ∀ token ∈ tree.leaves, token.Sound) :
    (voidReturn closures).AnchorsFollow tree := by
  intro regions a ha b hb hbefore
  obtain ⟨⟨path, -, hfoundA⟩, -⟩ := mem_sites.1 ha
  obtain ⟨⟨path', -, hfoundB⟩, -⟩ := mem_sites.1 hb
  obtain ⟨rfl, -⟩ := find_voidReturn hfoundA
  obtain ⟨rfl, -⟩ := find_voidReturn hfoundB
  obtain ⟨hanchorA, partA, first, hpartA, hfirst⟩ := anchor_voidReturn hfoundA
  obtain ⟨hanchorB, partB, -, hpartB, -⟩ := anchor_voidReturn hfoundB
  rw [hanchorA, hanchorB]
  rcases Path.precedes_total b.path a.path with h | h | h | h
  · exact VoidReturn.anchor_le_anchor (Or.inr h) hpartB hpartA
  · -- a clause has a token, so one that begins before another does not begin at the same offset
    exfalso
    have hend := startAt_add_width_le h hpartA
    obtain ⟨hmem, hwidth⟩ := width_le_of_firstToken? hfirst
    have hleaf : first ∈ tree.leaves := by
      obtain ⟨front, back, hleaves, -⟩ := exists_leaves_split hpartA
      simp [hleaves, hmem]
    have hpos := (hsound first hleaf).width_pos
    simp only [fixesBefore, Bool.or_eq_true, decide_eq_true_eq, Bool.and_eq_true, beq_iff_eq] at hbefore
    omega
  · exact VoidReturn.anchor_le_anchor (Or.inl h) hpartB hpartA
  · rw [eq_of_fixesBefore hbefore h]

/-- The sites of a pass, from the last one to the first, are reported in this order. -/
lemma anchors_order_eq (h : rule.AnchorsFollow tree) (regions : List Region) :
    (rule.order tree regions).reverse.map Site.anchor = (rule.sites tree regions).map Site.anchor := by
  have hperm := order_perm rule tree regions
  have hreported : ((rule.sites tree regions).map Site.anchor).Pairwise (· ≤ ·) :=
    List.pairwise_map.2 (pairwise_anchor_sites rule tree regions)
  have hdealt : ((rule.order tree regions).reverse.map Site.anchor).Pairwise (· ≤ ·) := by
    rw [List.pairwise_map, List.pairwise_reverse]
    refine (pairwise_order rule tree regions).imp_of_mem fun ha hb hbefore => ?_
    exact h regions _ (hperm.mem_iff.1 ha) _ (hperm.mem_iff.1 hb) hbefore
  exact (((List.reverse_perm _).trans hperm).map Site.anchor).eq_of_pairwise' hdealt hreported

end Rule

lemma Descends.corrections_eq {tokens : List Token} {source : Source} (h : Descends tokens source.tree) {rule : Rule}
    (hrule : rule.IsBuiltin) (regions : List Region) :
    (rule.correct source regions).corrections =
      (rule.order source.tree regions).reverse.map (rule.correction source.lines) := by
  rcases hrule with rfl | ⟨closures, rfl⟩
  · obtain ⟨pass, -, hcorrections, hcorrect⟩ := rewritten_trail source h.shaped (by rw [h.root]; simp) regions
    rw [hcorrect, hcorrections]
  · obtain ⟨pass, -, hcorrections, hcorrect⟩ := cleared_trail closures source regions
    rw [hcorrect, hcorrections]

/-- Reports and corrections agree: a rule corrects a text at the positions where it reports violations, in the same
order. -/
theorem Rule.positions_correct_eq (rule : Rule) (hrule : rule.IsBuiltin) (text : String) (regions : List Region) :
    (rule.correct (Source.ofText text) regions).corrections.map Correction.position =
      (rule.detect (Source.ofText text) regions).map Violation.position := by
  have hdescends := descends_parse text
  have hfollow : rule.AnchorsFollow (parse text) := by
    rcases hrule with rfl | ⟨closures, rfl⟩
    · exact anchorsFollow_expectation _
    · exact anchorsFollow_voidReturn hdescends.sound
  have hanchors := congrArg (List.map (Source.ofText text).lines.position) (anchors_order_eq hfollow regions)
  have hcorrections : (rule.correct (Source.ofText text) regions).corrections = _ :=
    Descends.corrections_eq hdescends hrule regions
  rw [hcorrections, Rule.detect, List.map_map, List.map_map]
  rw [List.map_map, List.map_map] at hanchors
  exact hanchors

/-- A clause of a function and one of a closure within it. -/
theorem Rule.positions_correct_eq_within :
    let source := Source.ofText "func run() -> Void { call { arg -> () in arg } }\n"
    (voidReturn true).IsBuiltin ∧
      ((voidReturn true).correct source []).corrections.map Correction.position = [⟨10, 1, 11⟩, ⟨31, 1, 32⟩] := by
  have hrule : (voidReturn true).IsBuiltin := Or.inr ⟨true, rfl⟩
  refine ⟨hrule, ?_⟩
  rw [positions_correct_eq _ hrule, detect, sites, List.mergeSort_of_pairwise (by decide +kernel)]
  decide +kernel

end SwiftTidy

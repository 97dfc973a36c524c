import SwiftTidy.Proofs.Exchange
import SwiftTidy.Proofs.Settling
import SwiftTidy.Proofs.Standing

/-!
# Sites in the order of a walk

A walk that visits each node before its children meets the nodes of a tree in the order of `Tree.nodePaths`. The sites of
a rule are numbered by where they begin in the text and by how deep they lie. As every site takes up some of the text,
this is the order of the walk (`Rule.trail_eq`).
-/

namespace SwiftTidy

namespace Path

lemma before_of_not_fixesBefore {p q : Path} (hne : p ≠ q) (h : ¬ Precedes q p) (h' : ¬ q <+: p) : Before p q := by
  rcases precedes_total p q with hpq | hqp | hpq | hqp
  · exact Or.inl hpq
  · exact absurd hqp h
  · exact Or.inr ⟨hpq, hne⟩
  · exact absurd hqp h'

end Path

namespace Tree

lemma nodePathsOf_append (i : Nat) (front back : List Tree) :
    nodePathsOf i (front ++ back) = nodePathsOf i front ++ nodePathsOf (i + front.length) back := by
  induction front generalizing i with
  | nil => simp [nodePathsOf]
  | cons tree rest ih =>
    have hindex : i + 1 + rest.length = i + (rest.length + 1) := by omega
    simp [nodePathsOf, ih, hindex]

lemma exists_head_of_mem_nodePathsOf {i : Nat} {trees : List Tree} {p : Path} (h : p ∈ nodePathsOf i trees) :
    ∃ j q, p = j :: q ∧ i ≤ j ∧ j < i + trees.length := by
  rw [nodePathsOf_eq_partsFrom] at h
  obtain ⟨part, hpart, hp⟩ := List.mem_filterMap.1 h
  obtain ⟨j, child, q, hchild, hpath, -⟩ := mem_partsFrom.1 hpart
  simp only [Part.nodePath?, Option.ite_none_right_eq_some, Option.some.injEq] at hp
  have hj := (List.getElem?_eq_some_iff.1 hchild).1
  exact ⟨i + j, q, by rw [← hp.2, hpath], by omega, by omega⟩

/-- The nodes before and behind a part stay in an exchange. -/
lemma exists_nodePaths_replaceAt {tree part : Tree} {q : Path} (h : tree.sub? q = some part) :
    ∃ front back, (∀ new : Tree, (tree.replaceAt q new).nodePaths = front ++ new.nodePaths.map (q ++ ·) ++ back) ∧
      (∀ p ∈ front, ¬ q <+: p ∧ Path.Before p q) ∧ ∀ p ∈ back, Path.Precedes q p := by
  induction q, tree, h using sub?_induction with
  | here => exact ⟨[], [], fun new => by simp [replaceAt], by simp, by simp⟩
  | inside kind left child right q h ih =>
    obtain ⟨front, back, hpaths, hfront, hback⟩ := ih
    refine ⟨[] :: (nodePathsOf 0 left ++ front.map (left.length :: ·)),
      back.map (left.length :: ·) ++ nodePathsOf (left.length + 1) right, fun new => ?_, ?_, ?_⟩
    · rw [replaceAt_node_length, nodePaths, nodePathsOf_append, nodePathsOf, hpaths]
      simp [Function.comp_def]
    · simp only [List.mem_cons, List.mem_append, List.mem_map]
      rintro p (rfl | hp | ⟨p, hp, rfl⟩)
      · exact ⟨by simp, Or.inr ⟨List.nil_prefix, by simp⟩⟩
      · obtain ⟨j, r, rfl, -, hj⟩ := exists_head_of_mem_nodePathsOf hp
        have hlt : Path.Precedes (j :: r) (left.length :: q) := Or.inl (by omega)
        exact ⟨hlt.apart.2, Or.inl hlt⟩
      · obtain ⟨hnot, hbefore⟩ := hfront p hp
        exact ⟨by simpa [List.cons_prefix_cons] using hnot, Path.before_cons_cons hbefore⟩
    · simp only [List.mem_append, List.mem_map]
      rintro p (⟨p, hp, rfl⟩ | hp)
      · simpa using hback p hp
      · obtain ⟨j, r, rfl, hj, -⟩ := exists_head_of_mem_nodePathsOf hp
        exact Or.inl (by omega)

end Tree

namespace Rule

open SwiftTidy.Tree

variable {rule : Rule} {tree : Tree}

/-- A site takes up some of the text. -/
lemma HasSite.width_pos {text : String} (hdescends : Descends (tokensOf text) tree) (hrule : rule.IsBuiltin) {p : Path}
    (h : rule.HasSite tree p) : ∃ part, tree.sub? p = some part ∧ 0 < part.width := by
  obtain ⟨kind, children, first, rest, hpart, hrow, -⟩ := h.exists_first hrule hdescends.shaped
  refine ⟨_, hpart, ?_⟩
  have hmem : first ∈ (Tree.node kind children).placedTokens := by simp [hrow]
  have hleaf := sub?_of_mem_placedTokens hmem
  have hwhole : tree.sub? (p ++ first.path) = some (.leaf first.token) :=
    (sub?_append_some hpart _).trans hleaf
  have hpos := (hdescends.sound _ (token_mem_leaves hwhole)).width_pos
  have hle := startAt_add_width_le_width hleaf
  rw [width] at hle
  omega

/-- A pass deals with the sites of a tree in the order of a walk, the last one first. -/
theorem trail_eq {text : String} (hdescends : Descends (tokensOf text) tree) (hrule : rule.IsBuiltin) :
    rule.trail tree [] = tree.nodePaths.filter (rule.HasSite tree ·) := by
  have hnodup := nodup_trail hrule tree []
  have hmem : ∀ p, p ∈ rule.trail tree [] ↔ p ∈ tree.nodePaths.filter (rule.HasSite tree ·) := by
    intro p
    rw [mem_trail_nil_iff hrule hdescends.shaped, List.mem_filter, decide_eq_true_iff]
    exact ⟨fun hsite => ⟨mem_nodePaths_of_hasSite hrule hdescends.shaped hsite, hsite⟩, fun h => h.2⟩
  have hperm : (rule.trail tree []).Perm (tree.nodePaths.filter (rule.HasSite tree ·)) :=
    (List.perm_ext_iff_of_nodup hnodup (tree.nodup_nodePaths.filter _)).2 hmem
  refine hperm.eq_of_pairwise' ?_ ((pairwise_nodePaths tree).filter _)
  rw [trail, List.pairwise_map, List.pairwise_reverse]
  rw [trail, List.map_reverse, List.nodup_reverse, List.nodup_iff_pairwise_ne, List.pairwise_map] at hnodup
  refine ((pairwise_order rule tree []).and hnodup).imp_of_mem fun {a b} ha hb hab => ?_
  obtain ⟨hbefore, hne⟩ := hab
  refine Path.before_of_not_fixesBefore hne.symm (fun hprecedes => ?_) fun hwithin => ?_
  · -- what comes before and takes up some of the text begins before
    have hsite : rule.HasSite tree a.path := by
      refine (mem_trail_nil_iff hrule hdescends.shaped).1 ?_
      exact List.mem_map_of_mem (List.mem_reverse.2 ha)
    obtain ⟨part, hpart, hpos⟩ := hsite.width_pos hdescends hrule
    have hle := startAt_add_width_le hprecedes hpart
    simp only [fixesBefore, Bool.or_eq_true, decide_eq_true_eq, Bool.and_eq_true, beq_iff_eq] at hbefore
    omega
  · exact hne (eq_of_fixesBefore hbefore hwithin)

end Rule

end SwiftTidy

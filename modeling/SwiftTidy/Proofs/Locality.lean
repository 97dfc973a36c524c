import SwiftTidy.Proofs.Removal
import SwiftTidy.Rule.Basic

/-!
# Removals are local

Seen from a part of a tree, the other tokens fall into four rows: those up to the nearest significant token on either
side, and the trivia in the two gaps that are left (`Tree.Gaps`). A removal thins out the gaps and leaves
everything beyond them alone, whatever the tree looks like (`Change.apply_remove`).
-/

namespace SwiftTidy

/-! ## Gaps -/

/-- One row of tokens is another one without some of its blanks. -/
structure Placed.Thins (row later : List Placed) : Prop where
  sublist : later.Sublist row
  others : (later.filter fun placed => !placed.isBlank) = row.filter fun placed => !placed.isBlank

lemma Placed.thins_filter {row : List Placed} {keep : Placed → Bool}
    (h : ∀ x ∈ row, keep x = false → x.isBlank = true) : Thins row (row.filter keep) where
  sublist := List.filter_sublist
  others := by
    rw [List.filter_filter]
    refine List.filter_congr fun x hx => ?_
    cases hkeep : keep x with
    | true => simp
    | false => simp [h x hx hkeep]

namespace Tree

/-- The tokens of a tree around a part of it. What is neither in the part nor in one of the gaps beside it is cut off from
the part by a significant token. -/
structure Gaps (tree part : Tree) (path : Path) (before lead trail after : List Placed) : Prop where
  tokens : tree.placedTokens = before ++ lead ++ part.placedTokens.map (Placed.under path) ++ trail ++ after
  ahead : ∀ x ∈ before ++ lead, Path.Precedes x.path path
  behind : ∀ x ∈ trail ++ after, Path.Precedes path x.path
  trivia : ∀ x ∈ lead ++ trail, x.isTrivia = true
  last : ∀ x ∈ before.getLast?, x.isTrivia = false
  first : ∀ x ∈ after.head?, x.isTrivia = false

lemma exists_gap (row : List Placed) : ∃ before gap, row = before ++ gap ∧ (∀ x ∈ gap, x.isTrivia = true) ∧
    ∀ x ∈ before.getLast?, x.isTrivia = false := by
  induction row using List.reverseRecOn with
  | nil => exact ⟨[], [], rfl, by simp, by simp⟩
  | append_singleton row x ih =>
    obtain ⟨before, gap, rfl, hgap, hlast⟩ := ih
    cases htrivia : x.isTrivia with
    | true =>
      refine ⟨before, gap ++ [x], by simp, fun y hy => ?_, hlast⟩
      rcases List.mem_append.1 hy with hy | hy
      · exact hgap y hy
      · rwa [List.mem_singleton.1 hy]
    | false => exact ⟨before ++ gap ++ [x], [], by simp, by simp, by simpa using htrivia⟩

/-- Every part of a tree stands between two gaps. -/
lemma exists_gaps {tree part : Tree} {path : Path} (h : tree.sub? path = some part) :
    ∃ before lead trail after, tree.Gaps part path before lead trail after := by
  obtain ⟨front, back, hslots, -, -, hfront, hback⟩ := exists_around h
  have hplaced : ∀ {row : List Slot} {x : Placed}, x ∈ row.filterMap Slot.placed? → ∃ slot ∈ row, x.path = slot.path := by
    intro row x hx
    obtain ⟨slot, hslot, hx⟩ := List.mem_filterMap.1 hx
    exact ⟨slot, hslot, Slot.path_of_placed? hx⟩
  obtain ⟨before, lead, hbefore, hlead, hlast⟩ := exists_gap (front.filterMap Slot.placed?)
  have hinner : (part.slots.map (Slot.under path)).filterMap Slot.placed? = part.placedTokens.map (Placed.under path) := by
    simp [placedTokens, List.filterMap_map, List.map_filterMap, Slot.placed?_under]
  refine ⟨before, lead, (back.filterMap Slot.placed?).takeWhile Placed.isTrivia,
    (back.filterMap Slot.placed?).dropWhile Placed.isTrivia, ?_, ?_, ?_, ?_, hlast, ?_⟩
  · rw [placedTokens, hslots, List.filterMap_append, List.filterMap_append, hbefore, hinner,
      List.append_assoc _ (List.takeWhile _ _), List.takeWhile_append_dropWhile]
  · intro x hx
    rw [← hbefore] at hx
    obtain ⟨slot, hslot, hpath⟩ := hplaced hx
    exact hpath ▸ hfront slot hslot
  · intro x hx
    rw [List.takeWhile_append_dropWhile] at hx
    obtain ⟨slot, hslot, hpath⟩ := hplaced hx
    exact hpath ▸ hback slot hslot
  · intro x hx
    rcases List.mem_append.1 hx with hx | hx
    · exact hlead x hx
    · exact List.mem_takeWhile_imp hx
  · intro x hx
    have hnot := List.head?_dropWhile_not Placed.isTrivia (back.filterMap Slot.placed?)
    rw [Option.mem_def.1 hx] at hnot
    simpa using hnot

namespace Gaps

variable {tree part : Tree} {path : Path} {before lead trail after : List Placed}
  (h : tree.Gaps part path before lead trail after)

include h

/-- What lies beside the part and is trivia does not lie before the gap. -/
lemma not_mem_before {x : Placed} (hbeside : tree.Beside path x) (htrivia : x.isTrivia = true) : x ∉ before := by
  intro hx
  obtain ⟨front, last, rfl⟩ := (List.eq_nil_or_concat' before).resolve_left (List.ne_nil_of_mem hx)
  have hsignificant : last.isTrivia = false := h.last last (by simp)
  rcases List.mem_append.1 hx with hx | hx
  · -- the last token before the gap stands between the two
    obtain ⟨other, -, ⟨r, hr⟩, hbetween⟩ := hbeside
    have hsorted := tree.pairwise_placedTokens
    rw [h.tokens] at hsorted
    simp only [List.append_assoc, List.pairwise_append] at hsorted
    have hxlast : Path.Precedes x.path last.path := hsorted.2.2 x hx last (by simp)
    have hlast : Path.Precedes last.path other.path := by
      simpa [hr] using (h.ahead last (by simp)).append [] r
    have hgap := hbetween last (by simp [h.tokens]) (Or.inl ⟨hxlast, hlast⟩)
    simp [hsignificant] at hgap
  · rw [List.mem_singleton.1 hx] at htrivia
    simp [hsignificant] at htrivia

/-- Nor does it lie behind the gap on the other side. -/
lemma not_mem_after {x : Placed} (hbeside : tree.Beside path x) (htrivia : x.isTrivia = true) : x ∉ after := by
  intro hx
  obtain ⟨first, back, rfl⟩ := List.exists_cons_of_ne_nil (List.ne_nil_of_mem hx)
  have hsignificant : first.isTrivia = false := h.first first (by simp)
  rcases List.mem_cons.1 hx with rfl | hx
  · simp [hsignificant] at htrivia
  · obtain ⟨other, -, ⟨r, hr⟩, hbetween⟩ := hbeside
    have hsorted := tree.pairwise_placedTokens
    rw [h.tokens, List.pairwise_append] at hsorted
    have hxfirst : Path.Precedes first.path x.path := (List.pairwise_cons.1 hsorted.2.1).1 x hx
    have hfirst : Path.Precedes other.path first.path := by
      simpa [hr] using (h.behind first (by simp)).append r []
    have hgap := hbetween first (by simp [h.tokens]) (Or.inr ⟨hfirst, hxfirst⟩)
    simp [hsignificant] at hgap

/-- Clearing the part thins out the gaps and leaves what is beyond them. -/
lemma leaves_of_clears {edit : Edit} (hedit : Edit.Clears tree path edit) :
    ∃ lead' trail', Placed.Thins lead lead' ∧ Placed.Thins trail trail' ∧
      edit.tree.leaves = (before ++ lead' ++ trail' ++ after).map Placed.token := by
  -- what is gone and not in the part is a blank in one of the gaps
  have hgone : ∀ x ∈ tree.placedTokens, ¬ path <+: x.path → (edit.moved x.path).isSome = false →
      x.isBlank = true ∧ tree.Beside path x := by
    intro x hx hout hnone
    rcases hedit.gone x.path (by simpa using hnone) with hwithin | ⟨blank, hblank, hwithin, hisBlank, hbeside, -⟩
    · exact absurd hwithin hout
    · obtain rfl := eq_of_isPrefix hblank hx hwithin
      exact ⟨hisBlank, hbeside⟩
  have hahead : ∀ x ∈ before ++ lead, ¬ path <+: x.path := fun x hx => (h.ahead x hx).apart.2
  have hbehind : ∀ x ∈ trail ++ after, ¬ path <+: x.path := fun x hx => (h.behind x hx).apart.1
  have hmem : ∀ x, x ∈ before ++ lead ∨ x ∈ trail ++ after → x ∈ tree.placedTokens := by
    intro x hx
    rw [h.tokens]
    simp only [List.mem_append] at hx ⊢
    tauto
  have hthins : ∀ gap : List Placed, (∀ x ∈ gap, x ∈ tree.placedTokens ∧ ¬ path <+: x.path) →
      Placed.Thins gap (gap.filter fun x => (edit.moved x.path).isSome) := fun gap hgap =>
    Placed.thins_filter fun x hx hnone => (hgone x (hgap x hx).1 (hgap x hx).2 hnone).1
  have hkeeps : ∀ row : List Placed, (∀ x ∈ row, x ∈ tree.placedTokens ∧ ¬ path <+: x.path ∧
      (tree.Beside path x → x.isTrivia = true → False)) → row.filter (fun x => (edit.moved x.path).isSome) = row := by
    intro row hrow
    refine List.filter_eq_self.2 fun x hx => ?_
    obtain ⟨hmem, hout, hnot⟩ := hrow x hx
    by_contra hnone
    obtain ⟨hisBlank, hbeside⟩ := hgone x hmem hout (by simpa using hnone)
    exact hnot hbeside (Placed.isTrivia_of_isBlank hisBlank)
  have hinner : (part.placedTokens.map (Placed.under path)).filter (fun x => (edit.moved x.path).isSome) = [] := by
    refine List.filter_eq_nil_iff.2 fun x hx => ?_
    obtain ⟨inner, -, rfl⟩ := List.mem_map.1 hx
    simp [hedit.inside]
  refine ⟨_, _, hthins lead fun x hx => ⟨hmem x (by simp [hx]), hahead x (by simp [hx])⟩,
    hthins trail fun x hx => ⟨hmem x (by simp [hx]), hbehind x (by simp [hx])⟩, ?_⟩
  rw [hedit.relocation.leaves_eq, h.tokens]
  simp only [List.filter_append, hinner, List.append_nil]
  rw [hkeeps before fun x hx => ⟨hmem x (by simp [hx]), hahead x (by simp [hx]), fun hb ht => h.not_mem_before hb ht hx⟩,
    hkeeps after fun x hx => ⟨hmem x (by simp [hx]), hbehind x (by simp [hx]), fun hb ht => h.not_mem_after hb ht hx⟩]

end Gaps

end Tree

namespace Change

/-- Any part of a tree can be removed except the tree itself. Its tokens are gone then, and so may be some of the blanks
between the part and the significant tokens next to it. All other tokens are still there, in their order. Asked to remove
the tree itself, a removal fails, and the tree is what it was. -/
theorem apply_remove (tree : Tree) :
    (∀ path part, path ≠ [] → tree.sub? path = some part →
      ∃ edit before lead trail after lead' trail', (remove path).apply tree = .ok edit ∧
        tree.Gaps part path before lead trail after ∧ Placed.Thins lead lead' ∧ Placed.Thins trail trail' ∧
        edit.tree.leaves = (before ++ lead' ++ trail' ++ after).map Placed.token) ∧
    (remove []).apply tree = .error (.internal "cannot remove the root node") ∧
      (Error.skip ((remove []).apply tree)).elim tree Edit.tree = tree := by
  refine ⟨fun path part hne hpart => ?_, rfl, rfl⟩
  obtain ⟨before, lead, trail, after, hgaps⟩ := Tree.exists_gaps hpart
  obtain ⟨lead', trail', hlead, htrail, hleaves⟩ := hgaps.leaves_of_clears (Edit.clears_remove hne hpart)
  have happly : (remove path).apply tree = .ok (Edit.remove tree path) := by
    cases path with
    | nil => exact absurd rfl hne
    | cons i path => rfl
  exact ⟨_, before, lead, trail, after, lead', trail', happly, hgaps, hlead, htrail, hleaves⟩

/-- A clause on a line of its own, between an empty node and a comment. -/
theorem apply_remove_clause :
    let clause : Tree :=
      .node .returnClause [.leaf ⟨.arrow, "->"⟩, .leaf ⟨.whitespace, " "⟩, .node .simpleType [.leaf ⟨.ident, "Void"⟩]]
    let tree : Tree := .node .functionDecl [.leaf ⟨.funcKw, "func"⟩, .leaf ⟨.whitespace, " "⟩, .leaf ⟨.ident, "f"⟩,
      .node .genericParams [], .leaf ⟨.newline, "\n"⟩, .leaf ⟨.whitespace, "  "⟩, .node .functionSignature [clause],
      .leaf ⟨.whitespace, " "⟩, .leaf ⟨.blockComment, "/* none */"⟩, .node .codeBlock [.leaf ⟨.lbrace, "\x7b"⟩]]
    [6, 0] ≠ [] ∧ tree.sub? [6, 0] = some clause ∧
      ∃ edit before lead trail after lead' trail', (remove [6, 0]).apply tree = .ok edit ∧
        tree.Gaps clause [6, 0] before lead trail after ∧ Placed.Thins lead lead' ∧ Placed.Thins trail trail' ∧
        edit.tree.leaves = (before ++ lead' ++ trail' ++ after).map Placed.token :=
  ⟨by decide, rfl, (apply_remove _).1 [6, 0] _ (by decide) rfl⟩

end Change

end SwiftTidy

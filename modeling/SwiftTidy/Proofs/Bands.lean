import SwiftTidy.Proofs.Places
import SwiftTidy.Syntax.Parser
import SwiftTidy.Syntax.Trivia
import Mathlib.Data.List.Nodup
import Mathlib.Data.List.Pairwise
import Mathlib.Data.List.TakeWhile

/-!
# Bands of trivia

The trivia around a significant token is found by two walks, one back and one on, and neither knows where the walks from
other tokens end. Still no trivia is found twice, and none is missed: where no empty node stops a walk, the bands of the
significant tokens, one after the other with the tokens between them, are the tokens of the tree
(`Tree.bands_partition`). Only what begins with the line break behind the last significant token is left over.

The gap between two significant tokens is cut at its first line break. The walk on from the earlier token ends there,
and the walk back from the later one, which sees the whole gap, drops what stands before it.
-/

namespace SwiftTidy

/-- The sides of a token. -/
inductive Side where
  | leading
  | trailing
  deriving DecidableEq

namespace Placed

/-- The slot that a token stands in. -/
def slot (placed : Placed) : Slot := ⟨placed.up, some placed.token⟩

/-- All tokens of a row are trivia. -/
def Blank (row : List Placed) : Prop := ∀ placed ∈ row, placed.isTrivia = true

/-- A row does not begin with trivia. -/
def Solid (row : List Placed) : Prop := ∀ placed ∈ row.head?, placed.isTrivia = false

lemma blank_takeWhile (row : List Placed) : Blank (row.takeWhile isTrivia) := fun _ h => List.mem_takeWhile_imp h

lemma solid_dropWhile (row : List Placed) : Solid (row.dropWhile isTrivia) := by
  intro placed h
  have hhead := List.head?_dropWhile_not isTrivia row
  rw [h] at hhead
  simpa using hhead

lemma Solid.take_one {row : List Placed} (h : Solid row) : Solid (row.take 1) := by
  cases row with
  | nil => exact h
  | cons placed row => exact h

lemma Blank.filter_eq_nil {gap : List Placed} (h : Blank gap) : gap.filter (fun placed => !placed.isTrivia) = [] := by
  rw [List.filter_eq_nil_iff]
  intro placed hplaced
  simp [h placed hplaced]

/-- Every row is trivia, or a gap of trivia, a significant token and another row. -/
theorem gaps_induction {P : List Placed → Prop} (blank : ∀ gap, Blank gap → P gap)
    (step : ∀ gap placed back, Blank gap → placed.isTrivia = false → P back → P (gap ++ placed :: back))
    (row : List Placed) : P row := by
  have hgap := blank_takeWhile row
  have hrow := row.takeWhile_append_dropWhile (p := isTrivia)
  cases hrest : row.dropWhile isTrivia with
  | nil =>
    rw [hrest, List.append_nil] at hrow
    exact hrow ▸ blank _ hgap
  | cons placed back =>
    have hplaced := solid_dropWhile row placed (by simp [hrest])
    have hlt : back.length < row.length := by
      have hle := (row.dropWhile_suffix isTrivia).length_le
      rw [hrest, List.length_cons] at hle
      omega
    rw [← hrow, hrest]
    exact step _ placed back hgap hplaced (gaps_induction blank step back)
termination_by row.length

variable {gap rest : List Placed}

lemma takeWhile_append (hgap : Blank gap) (hrest : Solid rest) : (gap ++ rest).takeWhile isTrivia = gap := by
  rw [List.takeWhile_append_of_pos hgap]
  cases rest with
  | nil => simp
  | cons placed rest => simp [hrest placed (by simp)]

lemma takeWhile_isTrivia_and (hgap : Blank gap) (hrest : Solid rest) :
    (gap ++ rest).takeWhile (fun placed => placed.isTrivia && !placed.isNewline) =
      gap.takeWhile fun placed => !placed.isNewline := by
  induction gap with
  | nil =>
    cases rest with
    | nil => rfl
    | cons placed rest => simp [hrest placed (by simp)]
  | cons placed gap ih =>
    have hplaced : placed.isTrivia = true := hgap placed (by simp)
    have ih := ih fun other hother => hgap other (by simp [hother])
    simp only [List.cons_append, List.takeWhile_cons, hplaced, Bool.true_and, ih]

end Placed

open Placed (Blank Solid)

/-! ## Walks -/

lemma Slot.walk_map_slot {gap rest : List Placed} (hgap : Blank gap) (hrest : Solid rest) :
    walk ((gap ++ rest).map Placed.slot) = gap ++ rest.take 1 := by
  induction gap with
  | nil =>
    cases rest with
    | nil => rfl
    | cons placed rest =>
      have hplaced : placed.token.isTrivia = false := hrest placed (by simp)
      simp [walk, Slot.placed?, Placed.slot, hplaced]
  | cons placed gap ih =>
    have hplaced : placed.token.isTrivia = true := hgap placed (by simp)
    have ih := ih fun other hother => hgap other (by simp [hother])
    simp [walk, Slot.placed?, Placed.slot, hplaced, ← ih]

namespace Around

variable {gap base rest : List Placed}

lemma walk_before (hgap : Blank gap) (hbase : Solid base.reverse) :
    Slot.walk ((base ++ gap).map Placed.slot).reverse = gap.reverse ++ base.reverse.take 1 := by
  have hback : Blank gap.reverse := fun placed h => hgap placed (List.mem_reverse.1 h)
  rw [← List.map_reverse, List.reverse_append, Slot.walk_map_slot hback hbase]

lemma leading_eq (hgap : Blank gap) (hbase : Solid base.reverse) (after : List Slot) :
    leading ⟨((base ++ gap).map Placed.slot).reverse, after⟩ =
      if base = [] then gap else gap.dropWhile fun placed => !placed.isNewline := by
  have hback : Blank gap.reverse := fun placed h => hgap placed (List.mem_reverse.1 h)
  have hnone : (gap.reverse).find? (fun placed => !placed.isTrivia) = none := by
    rw [List.find?_eq_none]
    intro placed h
    simp [hback placed h]
  have hgapBefore : gapBefore ⟨((base ++ gap).map Placed.slot).reverse, after⟩ = gap := by
    rw [gapBefore, walk_before hgap hbase, Placed.takeWhile_append hback hbase.take_one, List.reverse_reverse]
  rw [leading, hgapBefore, significantBefore?, walk_before hgap hbase, List.find?_append, hnone, Option.none_or]
  cases hrow : base.reverse with
  | nil => simp [List.reverse_eq_nil_iff.1 hrow]
  | cons last others =>
    have hne : base ≠ [] := by
      rintro rfl
      simp at hrow
    have hlast : last.isTrivia = false := hbase last (by simp [hrow])
    simp [hlast, hne]

lemma trailing_eq (hgap : Blank gap) (hrest : Solid rest) (before : List Slot) :
    trailing ⟨before, (gap ++ rest).map Placed.slot⟩ = gap.takeWhile fun placed => !placed.isNewline := by
  rw [trailing, Slot.walk_map_slot hgap hrest, Placed.takeWhile_isTrivia_and hgap hrest.take_one]

end Around

/-! ## Trees without empty nodes -/

namespace Tree

mutual

/-- Whether some node of a tree has no children. -/
def hasEmptyNode : Tree → Bool
  | .leaf _ => false
  | .node _ [] => true
  | .node _ (child :: rest) => haveEmptyNode (child :: rest)

/-- Whether some node of several trees has no children. -/
def haveEmptyNode : List Tree → Bool
  | [] => false
  | tree :: rest => tree.hasEmptyNode || haveEmptyNode rest

end

lemma map_slot_under (i : Nat) (row : List Placed) :
    (row.map Placed.slot).map (Slot.under [i]) = (row.map (Placed.under [i])).map Placed.slot := by
  simp [Function.comp_def, Placed.slot, Slot.under, Placed.under]

mutual

lemma slots_eq_map_slot (tree : Tree) (h : tree.hasEmptyNode = false) :
    tree.slots = tree.placedTokens.map Placed.slot := by
  cases tree with
  | leaf token => rfl
  | node kind children =>
    cases children with
    | nil => simp [hasEmptyNode] at h
    | cons child rest =>
      rw [hasEmptyNode] at h
      rw [slots_node kind (by simp), placedTokens_node]
      exact slotsFrom_eq_map_slot 0 (child :: rest) h

lemma slotsFrom_eq_map_slot (i : Nat) (trees : List Tree) (h : haveEmptyNode trees = false) :
    slotsFrom i trees = (placedFrom i trees).map Placed.slot := by
  cases trees with
  | nil => rfl
  | cons tree rest =>
    rw [haveEmptyNode, Bool.or_eq_false_iff] at h
    rw [slotsFrom, placedFrom, List.map_append, slots_eq_map_slot tree h.1, map_slot_under,
      slotsFrom_eq_map_slot (i + 1) rest h.2]

end

variable {tree : Tree}

lemma nodup_placedTokens (tree : Tree) : tree.placedTokens.Nodup :=
  (pairwise_placedTokens tree).imp fun {a b} (h : Path.Precedes a.path b.path) (heq : a = b) =>
    Path.Precedes.irrefl b.path (heq ▸ h)

/-- What stands around a token are the slots of the tokens before and after it. -/
lemma around_eq (h : tree.hasEmptyNode = false) {front back : List Placed} {placed : Placed}
    (hrow : tree.placedTokens = front ++ placed :: back) :
    tree.around placed.path = ⟨(front.map Placed.slot).reverse, back.map Placed.slot⟩ := by
  have hslots := slots_eq_map_slot tree h
  have hleaf : tree.sub? placed.path = some (.leaf placed.token) := sub?_of_mem_placedTokens (by simp [hrow])
  obtain ⟨before, after, hsplit, haround, -, hbefore, hafter⟩ := exists_around hleaf
  have hself : (Tree.leaf placed.token).slots.map (Slot.under placed.path) = [placed.slot] := by
    simp [Slot.under, Placed.slot, Placed.path]
  rw [hslots, hself, hrow, List.map_append, List.map_cons, List.append_assoc, List.singleton_append] at hsplit
  have hnotBefore : placed.slot ∉ before := fun hmem => Path.Precedes.irrefl _ (hbefore placed.slot hmem)
  have hnotAfter : placed.slot ∉ after := fun hmem => Path.Precedes.irrefl _ (hafter placed.slot hmem)
  obtain ⟨rfl, -, rfl⟩ := (List.append_cons_inj_of_notMem hnotBefore hnotAfter).1 hsplit.symm
  exact haround

/-! ## The partition -/

/-- The significant tokens of a tree with their places, in order. -/
def significantTokens (tree : Tree) : List Placed := tree.placedTokens.filter fun placed => !placed.isTrivia

/-- The trivia that belongs to a token on one of its sides. -/
def band (tree : Tree) (placed : Placed) : Side → List Placed
  | .leading => (tree.around placed.path).leading
  | .trailing => (tree.around placed.path).trailing

/-- A token with its bands around it. -/
def banded (tree : Tree) (placed : Placed) : List Placed :=
  tree.band placed .leading ++ placed :: tree.band placed .trailing

/-- The tokens from some point on, which stands at the beginning or behind a significant token. In the second case the
band of that token comes first. -/
lemma exists_banded (h : tree.hasEmptyNode = false) (base back : List Placed)
    (hrow : tree.placedTokens = base ++ back) (hbase : Solid base.reverse) :
    ∃ rest, back =
        (if base = [] then []
          else (back.takeWhile Placed.isTrivia).takeWhile fun placed => !placed.isNewline) ++
        (back.filter fun placed => !placed.isTrivia).flatMap tree.banded ++ rest ∧ Blank rest ∧
      (tree.significantTokens ≠ [] → ∀ placed ∈ rest.head?, placed.isNewline = true) := by
  induction back using Placed.gaps_induction generalizing base with
  | blank gap hgap =>
    have hnone := hgap.filter_eq_nil
    have hall : gap.takeWhile Placed.isTrivia = gap := by
      simpa using Placed.takeWhile_append hgap (by simp [Solid] : Solid [])
    rw [hnone, hall]
    by_cases hfirst : base = []
    · refine ⟨gap, by simp [hfirst], hgap, fun hsome => absurd ?_ hsome⟩
      rw [significantTokens, hrow, hfirst, List.nil_append, hnone]
    · refine ⟨gap.dropWhile fun placed => !placed.isNewline, by simp [hfirst], ?_, fun _ placed hplaced => ?_⟩
      · exact fun placed hplaced => hgap placed ((List.dropWhile_suffix _).subset hplaced)
      · have hhead := List.head?_dropWhile_not (fun placed : Placed => !placed.isNewline) gap
        rw [hplaced] at hhead
        simpa using hhead
  | step gap placed back hgap hplaced ih =>
    have hrow' : tree.placedTokens = (base ++ gap) ++ placed :: back := by rw [hrow, List.append_assoc]
    have hnone := hgap.filter_eq_nil
    obtain ⟨rest, hback, hblank, hhead⟩ := ih (base ++ gap ++ [placed]) (by rw [hrow']; simp)
      (by simp [Solid, hplaced])
    refine ⟨rest, ?_, hblank, hhead⟩
    have hleading := Around.leading_eq hgap hbase (back.map Placed.slot)
    have htrailing : (tree.around placed.path).trailing =
        (back.takeWhile Placed.isTrivia).takeWhile fun placed => !placed.isNewline := by
      have hcut := Around.trailing_eq (Placed.blank_takeWhile back) (Placed.solid_dropWhile back)
        ((base ++ gap).map Placed.slot).reverse
      rw [List.takeWhile_append_dropWhile] at hcut
      rw [around_eq h hrow', hcut]
    rw [← around_eq h hrow'] at hleading
    have htake : (gap ++ placed :: back).takeWhile Placed.isTrivia = gap :=
      Placed.takeWhile_append hgap (by simp [Solid, hplaced])
    have hbanded : tree.banded placed = (tree.around placed.path).leading ++
        placed :: (tree.around placed.path).trailing := rfl
    rw [htake, List.filter_append, hnone, List.nil_append, List.filter_cons_of_pos (by simp [hplaced]),
      List.flatMap_cons, hbanded, hleading, htrailing]
    conv_lhs => rw [hback]
    by_cases hfirst : base = []
    · simp [hfirst]
    · -- the gap is cut at its first line break
      have hcut := gap.takeWhile_append_dropWhile (p := fun placed => !placed.isNewline)
      rw [if_neg hfirst, if_neg hfirst, if_neg (by simp)]
      simp only [List.append_assoc, List.cons_append]
      rw [← List.append_assoc (gap.takeWhile _) (gap.dropWhile _), hcut]

lemma mem_banded {trivia placed : Placed} : trivia ∈ tree.banded placed ↔
    trivia = placed ∨ ∃ side, trivia ∈ tree.band placed side := by
  constructor
  · intro hmem
    rcases List.mem_append.1 hmem with hmem | hmem
    · exact .inr ⟨.leading, hmem⟩
    · exact (List.mem_cons.1 hmem).imp_right fun hmem => ⟨.trailing, hmem⟩
  · rintro (rfl | ⟨side, hmem⟩)
    · simp [banded]
    · cases side <;> simp [banded, hmem]

lemma nodup_banded (h : tree.hasEmptyNode = false) : (tree.significantTokens.flatMap tree.banded).Nodup := by
  obtain ⟨rest, hrow, -⟩ := exists_banded h [] tree.placedTokens rfl (by simp [Solid])
  have hnodup := nodup_placedTokens tree
  rw [hrow, if_pos rfl, List.nil_append] at hnodup
  exact hnodup.of_append_left

/-- Where no node is empty, the significant tokens of a tree with the trivia that leads and trails them are the tokens
of the tree, in order, up to the end of the last of these bands. What is left is trivia and begins with a line break,
unless there are no significant tokens at all. Trivia that is not left over lies in one band of one token only. -/
theorem bands_partition (tree : Tree) (h : tree.hasEmptyNode = false) :
    let banded := tree.significantTokens.flatMap fun placed =>
      tree.band placed .leading ++ placed :: tree.band placed .trailing
    (∃ rest, tree.placedTokens = banded ++ rest ∧ (∀ placed ∈ rest, placed.isTrivia = true) ∧
      (tree.significantTokens ≠ [] → ∀ placed ∈ rest.head?, placed.isNewline = true)) ∧
    ∀ trivia ∈ banded, trivia.isTrivia = true →
      ∃! owner : Placed × Side, owner.1 ∈ tree.significantTokens ∧ trivia ∈ tree.band owner.1 owner.2 := by
  intro banded
  obtain ⟨rest, hrow, hblank, hhead⟩ := exists_banded h [] tree.placedTokens rfl (by simp [Solid])
  rw [if_pos rfl, List.nil_append] at hrow
  refine ⟨⟨rest, hrow, hblank, hhead⟩, fun trivia hmem htrivia => ?_⟩
  obtain ⟨hown, hapart⟩ := List.nodup_flatMap.1 (nodup_banded h)
  obtain ⟨placed, hplaced, hbanded⟩ := List.mem_flatMap.1 hmem
  obtain ⟨side, hside⟩ : ∃ side, trivia ∈ tree.band placed side := by
    refine (mem_banded.1 hbanded).resolve_left ?_
    rintro rfl
    simp [significantTokens, htrivia] at hplaced
  refine ⟨(placed, side), ⟨hplaced, hside⟩, ?_⟩
  rintro ⟨other, otherSide⟩ ⟨hother, hotherSide⟩
  obtain rfl : other = placed := by
    by_contra hne
    have : Std.Symm (Function.onFun List.Disjoint tree.banded) := ⟨fun _ _ hdisjoint _ hx hy => hdisjoint hy hx⟩
    have hdisjoint := hapart.forall hother hplaced hne
    exact hdisjoint (mem_banded.2 (.inr ⟨otherSide, hotherSide⟩)) hbanded
  have hsides := (List.nodup_append.1 (hown other hplaced)).2.2
  cases side <;> cases otherSide
  · rfl
  · exact absurd rfl (hsides trivia hside trivia (List.mem_cons_of_mem _ hotherSide))
  · exact absurd rfl (hsides trivia hotherSide trivia (List.mem_cons_of_mem _ hside))
  · rfl

/-- A comment behind a token, between others that lead tokens. -/
theorem bands_partition_comment :
    let tree := parse "// head\nlet a = 1 // one\n\n  /* b */ let b = 2 \n\n"
    let banded := tree.significantTokens.flatMap fun placed =>
      tree.band placed .leading ++ placed :: tree.band placed .trailing
    let comment : Placed := ⟨[4], ⟨.lineComment, "// one"⟩⟩
    tree.hasEmptyNode = false ∧ comment ∈ banded ∧ comment.isTrivia = true ∧ tree.significantTokens ≠ [] ∧
      (∃ rest, tree.placedTokens = banded ++ rest ∧ (∀ placed ∈ rest, placed.isTrivia = true) ∧
        ∀ placed ∈ rest.head?, placed.isNewline = true) ∧
      ∃! owner : Placed × Side, owner.1 ∈ tree.significantTokens ∧ comment ∈ tree.band owner.1 owner.2 := by
  intro tree banded comment
  have hfull : tree.hasEmptyNode = false := by decide +kernel
  have hcomment : comment ∈ banded := by decide +kernel
  have hsome : tree.significantTokens ≠ [] := by decide +kernel
  obtain ⟨⟨rest, hrow, hblank, hhead⟩, howner⟩ := bands_partition tree hfull
  exact ⟨hfull, hcomment, rfl, hsome, ⟨rest, hrow, hblank, hhead hsome⟩, howner comment hcomment rfl⟩

end Tree

end SwiftTidy

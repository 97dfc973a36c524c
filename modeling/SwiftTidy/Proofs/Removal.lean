import SwiftTidy.Proofs.Trimming
import Mathlib.Data.List.TakeWhile

/-!
# What a removal takes along

Taking a node out of a tree tidies the blanks around it. However it decides which of them go, they are spaces
and line breaks that lie beside the node, and everything else stays (`Edit.clears_remove`).
-/

namespace SwiftTidy

namespace Placed

/-- Whether the token is a space or a line break. -/
def isBlank (placed : Placed) : Bool := placed.isSpace || placed.isNewline

variable {placed : Placed}

lemma isBlank_of_isSpace (h : placed.isSpace = true) : placed.isBlank = true := by
  simp [isBlank, h]

lemma isTrivia_of_isBlank (h : placed.isBlank = true) : placed.isTrivia = true := by
  simp only [isBlank, isSpace, isNewline, Bool.or_eq_true, beq_iff_eq] at h
  rcases h with h | h <;> simp [isTrivia, Token.isTrivia, h, Kind.isTrivia]

lemma isTrivia_of_isSpace (h : placed.isSpace = true) : placed.isTrivia = true :=
  isTrivia_of_isBlank (isBlank_of_isSpace h)

end Placed

/-! ## Walks -/

namespace Slot

variable {slots : List Slot} {x : Placed}

/-- What a walk meets before a token is trivia, and nothing is passed over. -/
lemma exists_of_mem_walk (h : x ∈ walk slots) :
    ∃ gap rest, slots.filterMap placed? = gap ++ x :: rest ∧ ∀ y ∈ gap, y.isTrivia = true := by
  induction slots with
  | nil => simp [walk] at h
  | cons slot slots ih =>
    rw [walk] at h
    cases hp : slot.placed? with
    | none => simp [hp] at h
    | some placed =>
      simp only [hp] at h
      rw [List.filterMap_cons_some hp]
      by_cases htrivia : placed.token.isTrivia = true
      · simp only [htrivia, if_true, List.mem_cons] at h
        rcases h with rfl | h
        · exact ⟨[], _, rfl, by simp⟩
        · obtain ⟨gap, rest, heq, hgap⟩ := ih h
          refine ⟨placed :: gap, rest, by simp [heq], ?_⟩
          intro y hy
          rcases List.mem_cons.1 hy with rfl | hy
          · exact htrivia
          · exact hgap y hy
      · simp only [htrivia, Bool.false_eq_true, if_false, List.mem_singleton] at h
        subst h
        exact ⟨[], _, rfl, by simp⟩

lemma walk_isPrefix (slots : List Slot) : walk slots <+: slots.filterMap placed? := by
  induction slots with
  | nil => simp [walk]
  | cons slot slots ih =>
    rw [walk]
    cases hp : slot.placed? with
    | none => simp
    | some placed =>
      rw [List.filterMap_cons_some hp]
      by_cases htrivia : placed.token.isTrivia = true
      · simpa [htrivia, List.cons_prefix_cons] using ih
      · simp [htrivia, List.cons_prefix_cons]

lemma eq_or_rel_of_mem_walk {r : Placed → Placed → Prop} (hsorted : (slots.filterMap placed?).Pairwise r) {y : Placed}
    (hx : x ∈ slots.filterMap placed?) (hsignificant : x.isTrivia = false) (hy : y ∈ walk slots) : x = y ∨ r y x := by
  obtain ⟨gap, rest, hrow, hgap⟩ := exists_of_mem_walk hy
  rw [hrow] at hx hsorted
  rcases List.mem_append.1 hx with hx | hx
  · simp [hgap x hx] at hsignificant
  · rcases List.mem_cons.1 hx with rfl | hx
    · exact Or.inl rfl
    · exact Or.inr ((List.pairwise_cons.1 (List.pairwise_append.1 hsorted).2.1).1 x hx)

end Slot

namespace Around

lemma gapBefore_sublist (around : Around) :
    around.gapBefore.Sublist (around.before.reverse.filterMap Slot.placed?) := by
  have hwithin := (List.takeWhile_prefix Placed.isTrivia).trans (Slot.walk_isPrefix around.before)
  rw [gapBefore, List.filterMap_reverse]
  exact hwithin.sublist.reverse

lemma trailing_isPrefix (around : Around) : around.trailing <+: around.after.filterMap Slot.placed? :=
  (List.takeWhile_prefix _).trans (Slot.walk_isPrefix around.after)

variable {around : Around} {x : Placed}

lemma mem_walk_of_mem_gapBefore (h : x ∈ around.gapBefore) : x ∈ Slot.walk around.before :=
  (List.takeWhile_prefix _).subset (List.mem_reverse.1 h)

lemma mem_walk_of_significantBefore? (h : around.significantBefore? = some x) : x ∈ Slot.walk around.before :=
  List.mem_of_find?_eq_some h

end Around

/-! ## Tokens beside a part -/

namespace Tree

section Walks

variable {tree part : Tree} {p : Path} (hp : tree.sub? p = some part) {x y : Placed}

include hp

lemma mem_walk_before (hx : x ∈ Slot.walk (tree.around p).before) :
    x ∈ tree.placedTokens ∧ Path.Precedes x.path p := by
  have hmem := (Slot.walk_isPrefix _).subset hx
  rw [(filterMap_around hp).1] at hmem
  simpa using hmem

lemma mem_walk_after (hx : x ∈ Slot.walk (tree.around p).after) :
    x ∈ tree.placedTokens ∧ Path.Precedes p x.path := by
  have hmem := (Slot.walk_isPrefix _).subset hx
  rw [(filterMap_around hp).2] at hmem
  simpa using hmem

variable (hx : x ∈ tree.placedTokens) (hsignificant : x.isTrivia = false)

include hx hsignificant

lemma precedes_of_mem_walk (hxp : Path.Precedes x.path p) (hy : y ∈ Slot.walk (tree.around p).before) :
    x = y ∨ Path.Precedes x.path y.path := by
  refine Slot.eq_or_rel_of_mem_walk (r := fun a b => Path.Precedes b.path a.path) ?_ ?_ hsignificant hy
  · rw [(filterMap_around hp).1, List.pairwise_reverse]
    exact tree.pairwise_placedTokens.filter _
  · simpa [(filterMap_around hp).1] using ⟨hx, hxp⟩

lemma precedes_of_mem_walk_after (hpx : Path.Precedes p x.path) (hy : y ∈ Slot.walk (tree.around p).after) :
    x = y ∨ Path.Precedes y.path x.path := by
  refine Slot.eq_or_rel_of_mem_walk (r := fun a b => Path.Precedes a.path b.path) ?_ ?_ hsignificant hy
  · rw [(filterMap_around hp).2]
    exact tree.pairwise_placedTokens.filter _
  · simpa [(filterMap_around hp).2] using ⟨hx, hpx⟩

end Walks

variable {a b : Placed} {front gap back : List Placed} {path : Path} {tree : Tree}

lemma eq_of_isPrefix (ha : a ∈ tree.placedTokens) (hb : b ∈ tree.placedTokens) (h : a.path <+: b.path) : a = b := by
  obtain ⟨r, hr⟩ := h
  have hleaf := sub?_of_mem_placedTokens hb
  rw [← hr, sub?_append, sub?_of_mem_placedTokens ha] at hleaf
  cases r with
  | nil =>
    simp only [Option.bind_some, sub?_nil, Option.some.injEq, leaf.injEq] at hleaf
    exact Placed.ext_path (by simpa using hr) hleaf
  | cons i r => simp [sub?] at hleaf

section Between

variable (h : tree.placedTokens = front ++ a :: (gap ++ b :: back))

include h

/-- In a row of tokens, what lies between two of them is what stands between them. -/
lemma mem_gap_of_between {c : Placed} (hc : c ∈ tree.placedTokens) (hbetween : Path.Between a.path c.path b.path) :
    c ∈ gap := by
  have hsorted := tree.pairwise_placedTokens
  rw [h] at hc hsorted
  simp only [List.pairwise_append, List.pairwise_cons, List.mem_append, List.mem_cons] at hsorted hc
  obtain ⟨-, ⟨hafter, -, ⟨hback, -⟩, hgap⟩, hfront⟩ := hsorted
  have hab : Path.Precedes a.path b.path := hafter b (Or.inr (Or.inl rfl))
  -- the second direction is impossible, since the first token stands to the left of the last
  have hcases : Path.Precedes a.path c.path ∧ Path.Precedes c.path b.path := by
    rcases hbetween with hbetween | ⟨hbc, hca⟩
    · exact hbetween
    · exact absurd hab (hbc.trans hca).asymm
  obtain ⟨hac, hcb⟩ := hcases
  rcases hc with hc | rfl | hc | rfl | hc
  · exact absurd hac (hfront c hc a (Or.inl rfl)).asymm
  · exact absurd hac (Path.Precedes.irrefl _)
  · exact hc
  · exact absurd hcb (Path.Precedes.irrefl _)
  · exact absurd hcb (hback c hc).asymm

lemma beside_of_append_left (hb : path <+: b.path) (hgap : ∀ c ∈ gap, c.isTrivia = true) : tree.Beside path a :=
  ⟨b, by simp [h], hb, fun c hc hbetween => hgap c (mem_gap_of_between h hc hbetween)⟩

lemma beside_of_append_right (ha : path <+: a.path) (hgap : ∀ c ∈ gap, c.isTrivia = true) : tree.Beside path b :=
  ⟨a, by simp [h], ha, fun c hc hbetween => hgap c (mem_gap_of_between h hc (Or.symm hbetween))⟩

/-- Only trivia stands between a place and one behind it. -/
def Leads (tree : Tree) (first path : Path) : Prop :=
  Path.Precedes first path ∧ ∀ placed ∈ tree.placedTokens, Path.Precedes first placed.path →
    Path.Precedes placed.path path → placed.isTrivia = true

/-- Only spaces stand between a part and a space behind it. -/
def Trails (tree : Tree) (path : Path) (placed : Placed) : Prop :=
  Path.Precedes path placed.path ∧ placed.isSpace = true ∧ ∀ other ∈ tree.placedTokens,
    Path.Precedes path other.path → Path.Precedes other.path placed.path → other.isSpace = true

/-- A token beside a part leads it, or it trails the part after spaces only. -/
def Flanks (tree : Tree) (path : Path) (placed : Placed) : Prop :=
  tree.Beside path placed ∧ (tree.Leads placed.path path ∨ tree.Trails path placed)

lemma flanks_of_append_left (ha : Path.Precedes a.path path) (hb : path <+: b.path)
    (hgap : ∀ c ∈ gap, c.isTrivia = true) : tree.Flanks path a := by
  refine ⟨beside_of_append_left h hb hgap, Or.inl ⟨ha, fun c hc hac hcp => ?_⟩⟩
  obtain ⟨r, hr⟩ := hb
  have hcb : Path.Precedes c.path b.path := by simpa [← hr] using hcp.append [] r
  exact hgap c (mem_gap_of_between h hc (Or.inl ⟨hac, hcb⟩))

lemma flanks_of_append_right (ha : path <+: a.path) (hb : Path.Precedes path b.path) (hspace : b.isSpace = true)
    (hgap : ∀ c ∈ gap, c.isSpace = true) : tree.Flanks path b := by
  have htrivia : ∀ c ∈ gap, c.isTrivia = true := fun c hc => Placed.isTrivia_of_isSpace (hgap c hc)
  refine ⟨beside_of_append_right h ha htrivia, Or.inr ⟨hb, hspace, fun c hc hpc hcb => ?_⟩⟩
  obtain ⟨r, hr⟩ := ha
  have hac : Path.Precedes a.path c.path := by simpa [← hr] using hpc.append r []
  exact hgap c (mem_gap_of_between h hc (Or.inl ⟨hac, hcb⟩))

end Between

/-- A part that begins and ends with a token, with the tokens before and after it. -/
structure Stands (tree : Tree) (path : Path) (front back : List Placed) : Prop where
  before : (tree.around path).before.reverse.filterMap Slot.placed? = front
  after : (tree.around path).after.filterMap Slot.placed? = back
  first : ∃ a rest, path <+: a.path ∧ tree.placedTokens = front ++ a :: (rest ++ back)
  last : ∃ a rest, path <+: a.path ∧ tree.placedTokens = (front ++ rest) ++ a :: back
  precedes_path : ∀ x ∈ front, Path.Precedes x.path path
  path_precedes : ∀ x ∈ back, Path.Precedes path x.path
  cases : ∀ x ∈ tree.placedTokens, x ∈ front ∨ path <+: x.path ∨ x ∈ back

/-- A part whose first and last slots hold tokens stands between the tokens before and after it. -/
lemma exists_stands {part : Tree} (h : tree.sub? path = some part) {t u : Token}
    (hfirst : (tree.slotsAt path).head?.bind Slot.token? = some t)
    (hlast : (tree.slotsAt path).getLast?.bind Slot.token? = some u) : ∃ front back, tree.Stands path front back := by
  obtain ⟨before, after, hslots, haround, hat, hbefore, hafter⟩ := exists_around h
  have hinside : ∀ slot ∈ part.slots.map (Slot.under path), path <+: slot.path := by
    intro slot hslot
    obtain ⟨inner, -, rfl⟩ := List.mem_map.1 hslot
    simp
  rw [hat] at hfirst hlast
  generalize part.slots.map (Slot.under path) = mid at hslots hfirst hlast hinside
  have htokens : tree.placedTokens =
      before.filterMap Slot.placed? ++ mid.filterMap Slot.placed? ++ after.filterMap Slot.placed? := by
    rw [placedTokens, hslots, List.filterMap_append, List.filterMap_append]
  obtain ⟨s, hs, hst⟩ := Option.bind_eq_some_iff.1 hfirst
  obtain ⟨e, he, het⟩ := Option.bind_eq_some_iff.1 hlast
  refine ⟨before.filterMap Slot.placed?, after.filterMap Slot.placed?, by simp [haround], by simp [haround],
    ?_, ?_, ?_, ?_, ?_⟩
  · obtain ⟨rest, hmid⟩ : ∃ rest, mid = s :: rest := by
      cases mid with
      | nil => simp at hs
      | cons x rest => exact ⟨rest, by simp_all⟩
    have hplaced : s.placed? = some ⟨s.up, t⟩ := by simp [Slot.placed?, hst]
    refine ⟨⟨s.up, t⟩, rest.filterMap Slot.placed?, ?_, ?_⟩
    · rw [Slot.path_of_placed? hplaced]
      exact hinside s (by simp [hmid])
    · rw [htokens, hmid, List.filterMap_cons_some hplaced]
      simp
  · obtain ⟨rest, hmid⟩ : ∃ rest, mid = rest ++ [e] := List.getLast?_eq_some_iff.1 he
    have hplaced : e.placed? = some ⟨e.up, u⟩ := by simp [Slot.placed?, het]
    refine ⟨⟨e.up, u⟩, rest.filterMap Slot.placed?, ?_, ?_⟩
    · rw [Slot.path_of_placed? hplaced]
      exact hinside e (by simp [hmid])
    · rw [htokens, hmid, List.filterMap_append, List.filterMap_cons_some hplaced]
      simp
  · intro x hx
    obtain ⟨slot, hslot, hp⟩ := List.mem_filterMap.1 hx
    rw [Slot.path_of_placed? hp]
    exact hbefore slot hslot
  · intro x hx
    obtain ⟨slot, hslot, hp⟩ := List.mem_filterMap.1 hx
    rw [Slot.path_of_placed? hp]
    exact hafter slot hslot
  · intro x hx
    rw [htokens, List.mem_append, List.mem_append] at hx
    rcases hx with (hx | hx) | hx
    · exact Or.inl hx
    · obtain ⟨slot, hslot, hp⟩ := List.mem_filterMap.1 hx
      rw [Slot.path_of_placed? hp]
      exact Or.inr (Or.inl (hinside slot hslot))
    · exact Or.inr (Or.inr hx)

namespace Stands

variable {tree : Tree} {path : Path} {front back : List Placed} (h : tree.Stands path front back)

include h

variable {x : Placed}

lemma mem_of_mem_front (hx : x ∈ front) : x ∈ tree.placedTokens := by
  obtain ⟨a, rest, -, heq⟩ := h.first
  simp [heq, hx]

lemma mem_of_mem_back (hx : x ∈ back) : x ∈ tree.placedTokens := by
  obtain ⟨a, rest, -, heq⟩ := h.first
  simp [heq, hx]

lemma mem_front_of_mem_walk (hx : x ∈ Slot.walk (tree.around path).before) : x ∈ front := by
  rw [← h.before, List.filterMap_reverse, List.mem_reverse]
  exact (Slot.walk_isPrefix _).subset hx

/-- The part and tokens on either side of it are all at different places. -/
lemma nodup {left right : List Placed} (hleft : left.Sublist front) (hright : right.Sublist back) :
    (path :: (left.map Placed.path ++ right.map Placed.path)).Nodup := by
  rw [List.nodup_cons]
  constructor
  · rw [List.mem_append, List.mem_map, List.mem_map]
    rintro (⟨x, hx, hpath⟩ | ⟨x, hx, hpath⟩)
    · exact Path.Precedes.irrefl _ (hpath ▸ h.precedes_path x (hleft.subset hx))
    · exact Path.Precedes.irrefl _ (hpath ▸ h.path_precedes x (hright.subset hx))
  · obtain ⟨a, rest, -, htokens⟩ := h.first
    have hsub : (left ++ right).Sublist tree.placedTokens := by
      rw [htokens]
      refine hleft.append ?_
      exact hright.trans ((List.sublist_append_right _ _).trans (List.sublist_cons_self _ _))
    rw [← List.map_append, List.nodup_iff_pairwise_ne, List.pairwise_map]
    refine (tree.pairwise_placedTokens.sublist hsub).imp ?_
    intro x y hxy heq
    exact Path.Precedes.irrefl _ (heq ▸ hxy)

lemma flanks_before (hx : x ∈ Slot.walk (tree.around path).before) : tree.Flanks path x := by
  obtain ⟨gap, rest, heq, hgap⟩ := Slot.exists_of_mem_walk hx
  have hfront : front = rest.reverse ++ x :: gap.reverse := by
    rw [← h.before, List.filterMap_reverse, heq]
    simp
  obtain ⟨a, inner, ha, htokens⟩ := h.first
  have hsplit : tree.placedTokens = rest.reverse ++ x :: (gap.reverse ++ a :: (inner ++ back)) := by
    rw [htokens, hfront]
    simp
  exact flanks_of_append_left hsplit (h.precedes_path x (by simp [hfront])) ha (by simpa using hgap)

/-- The spaces that follow a part directly flank it. -/
lemma flanks_after (hx : x ∈ (tree.around path).trailing.takeWhile Placed.isSpace) : tree.Flanks path x := by
  have hrow := ((List.takeWhile_prefix Placed.isSpace).trans (tree.around path).trailing_isPrefix)
  obtain ⟨more, hmore⟩ := hrow
  obtain ⟨gap, rest, hgap⟩ := List.append_of_mem hx
  have hspaces : ∀ c ∈ gap ++ x :: rest, c.isSpace = true := fun c hc => List.mem_takeWhile_imp (hgap ▸ hc)
  rw [h.after, hgap] at hmore
  obtain ⟨a, inner, ha, htokens⟩ := h.last
  have hsplit : tree.placedTokens = (front ++ inner) ++ a :: (gap ++ x :: (rest ++ more)) := by
    rw [htokens, ← hmore]
    simp
  exact flanks_of_append_right hsplit ha (h.path_precedes x (by simp [← hmore])) (hspaces x (by simp))
    fun c hc => hspaces c (by simp [hc])

/-- What stands between a part and the significant token before it flanks the part. -/
lemma flanks_of_significantBefore? {previous : Placed}
    (hprevious : (tree.around path).significantBefore? = some previous) (hx : x ∈ front)
    (hprec : Path.Precedes previous.path x.path) : tree.Flanks path x := by
  obtain ⟨gap, rest, heq, hgap⟩ := Slot.exists_of_mem_walk (Around.mem_walk_of_significantBefore? hprevious)
  obtain ⟨a, inner, ha, htokens⟩ := h.first
  have hsplit : front = rest.reverse ++ previous :: gap.reverse := by
    rw [← h.before, List.filterMap_reverse, heq]
    simp
  have hgapRow : tree.placedTokens = rest.reverse ++ previous :: (gap.reverse ++ a :: (inner ++ back)) := by
    rw [htokens, hsplit]
    simp
  have hxa : Path.Precedes x.path a.path := by
    obtain ⟨r, hr⟩ := ha
    rw [← hr]
    simpa using (h.precedes_path x hx).append [] r
  have hbetween : x ∈ gap.reverse := mem_gap_of_between hgapRow (h.mem_of_mem_front hx) (Or.inl ⟨hprec, hxa⟩)
  obtain ⟨left, right, hlr⟩ := List.append_of_mem hbetween
  have hrow : tree.placedTokens = (rest.reverse ++ previous :: left) ++ x :: (right ++ a :: (inner ++ back)) := by
    rw [hgapRow, hlr]
    simp
  refine flanks_of_append_left hrow (h.precedes_path x hx) ha fun c hc => hgap c ?_
  rw [← List.mem_reverse, hlr]
  simp [hc]

lemma flanks_of_isSpace (hx : x ∈ back) (hspace : x.isSpace = true)
    (hspaces : ∀ c ∈ back, Path.Precedes c.path x.path → c.isSpace = true) : tree.Flanks path x := by
  obtain ⟨left, right, hlr⟩ := List.append_of_mem hx
  obtain ⟨a, inner, ha, htokens⟩ := h.last
  rw [hlr] at htokens
  refine flanks_of_append_right htokens ha (h.path_precedes x hx) hspace fun c hc => hspaces c (by simp [hlr, hc]) ?_
  have hsorted := tree.pairwise_placedTokens
  rw [htokens, List.pairwise_append, List.pairwise_cons] at hsorted
  obtain ⟨-, ⟨-, hright⟩, -⟩ := hsorted
  exact (List.pairwise_append.1 hright).2.2 c hc x (by simp)

end Stands

end Tree

/-! ## Removals -/

namespace Edit

open SwiftTidy.Tree

/-- An edit takes out the part at a path, blanks beside it and nothing else. -/
structure Clears (tree : Tree) (path : Path) (edit : Edit) : Prop where
  relocation : tree.Relocation edit.tree edit.moved
  inside : ∀ q, path <+: q → edit.moved q = none
  gone : ∀ q, edit.moved q = none → path <+: q ∨
    ∃ blank ∈ tree.placedTokens, blank.path <+: q ∧ blank.isBlank = true ∧ tree.Flanks path blank
  trimming : tree.SpareAt path → tree.Trimming edit.tree edit.moved

variable {tree : Tree} {path : Path} {cut : Edit} {front back : List Placed} {x previous : Placed}

lemma spareAt_of_isBlank (hx : x ∈ tree.placedTokens) (hblank : x.isBlank = true) (hne : x.path ≠ []) :
    tree.SpareAt x.path := by
  have hsub := sub?_of_mem_placedTokens hx
  obtain ⟨q, i, hq⟩ := (List.eq_nil_or_concat' x.path).resolve_left hne
  rw [hq] at hsub
  obtain ⟨kind, children, hnode, hchild⟩ := exists_owner_of_concat hsub
  exact ⟨q, i, kind, children, _, hq, hnode, hchild, Placed.isTrivia_of_isBlank hblank⟩

lemma clears_take (hne : path ≠ []) {blanks : List Placed}
    (hblanks : ∀ x ∈ blanks, x ∈ tree.placedTokens ∧ x.isBlank = true ∧ tree.Flanks path x)
    (hnodup : (path :: blanks.map Placed.path).Nodup) :
    Clears tree path (take tree (path :: blanks.map Placed.path)) where
  relocation := Relocation.prune hnodup tree
  inside q hq := Path.afterPruning_eq_none_iff.2 ⟨path, by simp, hne, hq⟩
  gone q hq := by
    obtain ⟨r, hr, -, hwithin⟩ := Path.afterPruning_eq_none_iff.1 hq
    rcases List.mem_cons.1 hr with rfl | hr
    · exact Or.inl hwithin
    · obtain ⟨x, hx, rfl⟩ := List.mem_map.1 hr
      obtain ⟨hmem, hblank, hflanks⟩ := hblanks x hx
      exact Or.inr ⟨x, hmem, hwithin, hblank, hflanks⟩
  trimming hspare := by
    refine Trimming.prune hnodup fun p hp hne => ?_
    rcases List.mem_cons.1 hp with rfl | hp
    · exact hspare
    · obtain ⟨x, hx, rfl⟩ := List.mem_map.1 hp
      obtain ⟨hmem, hblank, -⟩ := hblanks x hx
      exact spareAt_of_isBlank hmem hblank hne

lemma space_of_trailing (h : tree.Stands path front back)
    (hx : x ∈ (tree.around path).trailing.takeWhile Placed.isSpace) :
    x ∈ tree.placedTokens ∧ x.isBlank = true ∧ tree.Flanks path x := by
  have hspace : x.isSpace = true := List.mem_takeWhile_imp hx
  have htrailing := (List.takeWhile_prefix _).subset hx
  refine ⟨h.mem_of_mem_back ?_, Placed.isBlank_of_isSpace hspace, h.flanks_after hx⟩
  rw [← h.after]
  exact (Around.trailing_isPrefix _).subset htrailing

lemma exists_after {rest : Tree} (h : previous ∈ rest.placedTokens) :
    ∃ front, rest.placedTokens =
      front ++ previous :: (rest.around previous.path).after.filterMap Slot.placed? := by
  obtain ⟨before, after, hslots, haround, -⟩ := exists_around (sub?_of_mem_placedTokens h)
  refine ⟨before.filterMap Slot.placed?, ?_⟩
  have hplaced : (Slot.under previous.path ⟨[], some previous.token⟩).placed? = some previous := by
    simp [Slot.placed?, Slot.under]
  rw [placedTokens, hslots, haround, List.filterMap_append, List.filterMap_append, slots_leaf, List.map_singleton,
    List.filterMap_cons_some hplaced]
  simp

section

variable (h : tree.Stands path front back) (hcut : Clears tree path cut)
  (hprevious : (tree.around path).significantBefore? = some previous)
  (hstays : cut.moved previous.path = some previous.path)

include h hcut hprevious hstays

/-- A space that trails the token before a part, once the part is cut out, flanked the part. -/
lemma flanks_of_dangling (hspaces : (cut.tree.around previous.path).trailing.all Placed.isSpace = true) {y : Placed}
    (hx : x ∈ tree.placedTokens) (hspace : x.isSpace = true) (hmoved : cut.moved x.path = some y.path)
    (hy : y ∈ (cut.tree.around previous.path).trailing) : tree.Flanks path x := by
  have hfront := h.mem_front_of_mem_walk (Around.mem_walk_of_significantBefore? hprevious)
  have hpath := h.precedes_path previous hfront
  -- in the tree that is left, only spaces stand between the two
  have hmem : previous ∈ cut.tree.placedTokens := by
    simpa using hcut.relocation.mem_tokens (h.mem_of_mem_front hfront) hstays
  obtain ⟨front', htokens'⟩ := exists_after hmem
  obtain ⟨more, hmore⟩ := Around.trailing_isPrefix (cut.tree.around previous.path)
  obtain ⟨gap', rest', htrailing⟩ := List.append_of_mem hy
  have hgap' : ∀ c ∈ gap', c.isSpace = true := fun c hc => List.all_eq_true.1 hspaces c (by simp [htrailing, hc])
  rw [← hmore, htrailing, List.append_assoc, List.cons_append] at htokens'
  have hprec : Path.Precedes previous.path x.path := by
    rw [← hcut.relocation.precedes hstays hmoved]
    have hsorted := cut.tree.pairwise_placedTokens
    rw [htokens', List.pairwise_append, List.pairwise_cons] at hsorted
    exact hsorted.2.1.1 y (by simp)
  rcases h.cases x hx with hx | hx | hx
  · exact h.flanks_of_significantBefore? hprevious hx hprec
  · simp [hcut.inside _ hx] at hmoved
  · -- what is in between are spaces, whether they are still there or not
    refine h.flanks_of_isSpace hx hspace fun c hcback hcx => ?_
    have hcin := h.mem_of_mem_back hcback
    cases hc' : cut.moved c.path with
    | none =>
      rcases hcut.gone _ hc' with hinside | ⟨blank, hblank, hwithin, -, -, hleads | htrails⟩
      · exact absurd hinside (h.path_precedes c hcback).apart.1
      · rw [eq_of_isPrefix hblank hcin hwithin] at hleads
        exact absurd hleads.1 (h.path_precedes c hcback).asymm
      · rw [eq_of_isPrefix hblank hcin hwithin] at htrails
        exact htrails.2.1
    | some p =>
      have hmemc := hcut.relocation.mem_tokens hcin hc'
      have hbetween : Path.Between previous.path p y.path := by
        refine Or.inl ⟨?_, ?_⟩
        · rw [hcut.relocation.precedes hstays hc']
          exact hpath.trans (h.path_precedes c hcback)
        · rw [hcut.relocation.precedes hc' hmoved]
          exact hcx
      have hspace := hgap' _ (mem_gap_of_between htokens' hmemc (by simpa using hbetween))
      exact hspace

/-- Taking out a part and then the space that trails the token before it clears the part. -/
lemma clears_dropDanglingSpace : Clears tree path (cut.andThen fun rest => dropDanglingSpace rest previous.path) := by
  rw [andThen, dropDanglingSpace]
  split
  next hspaces =>
    have hsub := (Around.trailing_isPrefix (cut.tree.around previous.path)).sublist
    have hmem : previous ∈ cut.tree.placedTokens := by
      have hfront := h.mem_of_mem_front
        (h.mem_front_of_mem_walk (Around.mem_walk_of_significantBefore? hprevious))
      simpa using hcut.relocation.mem_tokens hfront hstays
    obtain ⟨front', htokens⟩ := exists_after hmem
    have hnodup : ((cut.tree.around previous.path).trailing.map Placed.path).Nodup := by
      rw [List.nodup_iff_pairwise_ne, List.pairwise_map]
      have hsorted := cut.tree.pairwise_placedTokens
      rw [htokens] at hsorted
      refine (hsorted.sublist ((hsub.trans (List.sublist_cons_self _ _)).trans
        (List.sublist_append_right _ _))).imp ?_
      intro a b hab heq
      exact Path.Precedes.irrefl _ (heq ▸ hab)
    have hin : ∀ y ∈ (cut.tree.around previous.path).trailing, y ∈ cut.tree.placedTokens := by
      intro y hy
      rw [htokens]
      exact List.mem_append_right _ (List.mem_cons_of_mem _ (hsub.subset hy))
    refine ⟨hcut.relocation.trans (Relocation.prune hnodup _), ?_, ?_,
      fun hspare => (hcut.trimming hspare).trans (Trimming.prune hnodup ?_)⟩
    · intro q hq
      simp [hcut.inside q hq]
    · intro q hq
      cases hq' : cut.moved q with
      | none => exact hcut.gone q hq'
      | some q' =>
        simp only [hq', Option.bind_some] at hq
        obtain ⟨r, hr, -, hwithin⟩ := Path.afterPruning_eq_none_iff.1 hq
        obtain ⟨y, hy, rfl⟩ := List.mem_map.1 hr
        obtain ⟨x, hx, hmoved, htoken⟩ := hcut.relocation.exists_token (hin y hy)
        have hspace : x.isSpace = true := by
          have := List.all_eq_true.1 hspaces y hy
          simpa [Placed.isSpace, htoken] using this
        exact Or.inr ⟨x, hx, (hcut.relocation.prefix_iff hmoved hq').1 hwithin, Placed.isBlank_of_isSpace hspace,
          flanks_of_dangling h hcut hprevious hstays hspaces hx hspace hmoved hy⟩
    · intro p hp hne
      obtain ⟨y, hy, rfl⟩ := List.mem_map.1 hp
      exact spareAt_of_isBlank (hin y hy) (Placed.isBlank_of_isSpace (List.all_eq_true.1 hspaces y hy)) hne
  next =>
    have hkeep : (fun q => (cut.moved q).bind some) = cut.moved := by
      funext q
      simp
    simp only [keep, hkeep]
    exact ⟨hcut.relocation, hcut.inside, hcut.gone, hcut.trimming⟩

end

/-- Removing a part takes out the part, blanks beside it and nothing else. -/
theorem clears_remove {part : Tree} (hne : path ≠ []) (hpart : tree.sub? path = some part) :
    Clears tree path (remove tree path) := by
  have halone : Clears tree path (take tree [path]) := by
    have hnone : ∀ x ∈ ([] : List Placed), x ∈ tree.placedTokens ∧ x.isBlank = true ∧ tree.Flanks path x := by
      simp
    simpa using clears_take hne hnone (by simp)
  rw [remove]
  split
  next t u hfirst hlast =>
    obtain ⟨front, back, h⟩ := exists_stands hpart hfirst hlast
    have hspace := fun x => space_of_trailing h (x := x)
    have hspaces : ((tree.around path).trailing.takeWhile Placed.isSpace).Sublist back := by
      rw [← h.after]
      exact (List.takeWhile_sublist _).trans (Around.trailing_isPrefix _).sublist
    have hcut := clears_take hne hspace (by simpa using h.nodup (List.nil_sublist _) hspaces)
    simp only
    split
    next hcontinuation =>
      -- the indentation goes along, and perhaps the spaces that follow
      simp only [opensContinuation, Bool.and_eq_true, List.all_eq_true] at hcontinuation
      have hindents : (tree.around path).gapBefore.Sublist front := by
        rw [← h.before]
        exact Around.gapBefore_sublist _
      have hindent : ∀ x ∈ (tree.around path).gapBefore,
          x ∈ tree.placedTokens ∧ x.isBlank = true ∧ tree.Flanks path x := by
        intro x hx
        exact ⟨h.mem_of_mem_front (hindents.subset hx), hcontinuation.2 x hx,
          h.flanks_before (Around.mem_walk_of_mem_gapBefore hx)⟩
      split
      · rw [List.cons_append, ← List.map_append]
        refine clears_take hne ?_ (by simpa using h.nodup hindents hspaces)
        intro x hx
        rcases List.mem_append.1 hx with hx | hx
        · exact hindent x hx
        · exact hspace x hx
      · rw [List.append_nil]
        exact clears_take hne hindent (by simpa using h.nodup hindents (List.nil_sublist _))
    next =>
      split
      next previous hprevious =>
        split
        · refine clears_dropDanglingSpace h hcut hprevious (Path.afterPruning_eq_self ?_)
          have hbefore : Path.Precedes previous.path path :=
            h.precedes_path previous
              (h.mem_front_of_mem_walk (Around.mem_walk_of_significantBefore? hprevious))
          intro q hq
          rcases List.mem_cons.1 hq with rfl | hq
          · exact hbefore
          · obtain ⟨x, hx, rfl⟩ := List.mem_map.1 hq
            exact hbefore.trans (h.path_precedes x (hspaces.subset hx))
        · exact hcut
      next => exact hcut
  next => exact halone

end Edit

end SwiftTidy

import SwiftTidy.Proofs.Exchange

/-!
# What a removal looks at

Taking out a node, a removal walks to the nearest significant tokens on either side and no further. Hence it does not
notice if a part of the tree behind it is exchanged that begins with a significant token (`Edit.remove_replaceAt_left`).
Between two brackets it sees nothing of what is outside (`Edit.remove_append`).

All that is told by the tokens that the walks meet. Where those match the tokens met from another place, maybe of
another tree, the places that go with the two match as well (`Edit.SeenAlike`).
-/

namespace SwiftTidy

/-! ## Walks -/

namespace Slot

/-- Whether the slot holds a significant token, at which every walk ends. -/
def isSignificant (slot : Slot) : Bool := slot.token?.any fun token => !token.isTrivia

/-- A walk does not go beyond a significant token. -/
lemma walk_append {front : List Slot} (h : ∃ slot ∈ front, slot.isSignificant = true) (back : List Slot) :
    walk (front ++ back) = walk front := by
  induction front with
  | nil => simp at h
  | cons slot front ih =>
    rw [List.cons_append, walk, walk]
    cases htoken : slot.token? with
    | none => simp [placed?, htoken]
    | some token =>
      simp only [placed?, htoken, Option.map_some]
      split
      next htrivia =>
        rw [ih]
        obtain ⟨other, hother, hsignificant⟩ := h
        rcases List.mem_cons.1 hother with rfl | hother
        · simp [isSignificant, htoken, htrivia] at hsignificant
        · exact ⟨other, hother, hsignificant⟩
      next => rfl

/-- Hence what lies behind such a token may be left out. -/
lemma walk_filter {row : List Slot} {keep : Slot → Bool} {stop? : Option Slot}
    (hnone : stop? = none → ∀ slot ∈ row, keep slot = true)
    (hsome : ∀ stop ∈ stop?, stop.isSignificant = true ∧ keep stop = false ∧ ∃ front back,
      row = front ++ stop :: back ∧ (∀ slot ∈ front, keep slot = true) ∧ ∀ slot ∈ back, keep slot = false) :
    walk row = walk (row.filter keep ++ stop?.toList) := by
  cases stop? with
  | none => simp [List.filter_eq_self.2 (hnone rfl)]
  | some stop =>
    obtain ⟨hstop, hkeep, front, back, rfl, hfront, hback⟩ := hsome stop rfl
    rw [List.filter_append, List.filter_cons_of_neg (by simp [hkeep]), List.filter_eq_self.2 hfront,
      List.filter_eq_nil_iff.2 (by simpa using hback), List.append_nil, List.append_cons,
      walk_append ⟨stop, by simp, hstop⟩]
    rfl

/-- A walk towards a significant token is stopped on its way, or it meets trivia and then the token. -/
lemma walk_concat_cases (slots : List Slot) :
    (∃ row, (∀ x ∈ row, x ∈ slots.filterMap placed?) ∧
      ∀ last : Slot, last.isSignificant = true → walk (slots ++ [last]) = row) ∨
    ∃ row, (∀ x ∈ row, x ∈ slots.filterMap placed? ∧ x.isTrivia = true) ∧
      ∀ (last : Slot) (x : Placed), last.placed? = some x → x.isTrivia = false → walk (slots ++ [last]) = row ++ [x] := by
  induction slots with
  | nil =>
    refine Or.inr ⟨[], by simp, fun last x hx htrivia => ?_⟩
    have htrivia : x.token.isTrivia = false := htrivia
    simp [walk, hx, htrivia]
  | cons slot slots ih =>
    cases hslot : slot.placed? with
    | none => exact Or.inl ⟨[], by simp, fun last _ => by simp [walk, hslot]⟩
    | some placed =>
      rw [List.filterMap_cons_some hslot]
      by_cases htrivia : placed.token.isTrivia = true
      · have hwalk : ∀ more, walk (slot :: slots ++ more) = placed :: walk (slots ++ more) := fun more => by
          simp [walk, hslot, htrivia]
        simp only [hwalk]
        rcases ih with ⟨row, hrow, hlast⟩ | ⟨row, hrow, hlast⟩
        · refine Or.inl ⟨placed :: row, fun x hx => ?_, fun last h => by rw [hlast last h]⟩
          rcases List.mem_cons.1 hx with rfl | hx
          · exact List.mem_cons_self
          · exact List.mem_cons_of_mem _ (hrow x hx)
        · refine Or.inr ⟨placed :: row, fun x hx => ?_, fun last x hx h => by rw [hlast last x hx h]; rfl⟩
          rcases List.mem_cons.1 hx with rfl | hx
          · exact ⟨List.mem_cons_self, htrivia⟩
          · exact ⟨List.mem_cons_of_mem _ (hrow x hx).1, (hrow x hx).2⟩
      · exact Or.inl ⟨[placed], by simp, fun last _ => by simp [walk, hslot, htrivia]⟩

lemma exists_placed_of_isSignificant {slot : Slot} (h : slot.isSignificant = true) :
    ∃ x, slot.placed? = some x ∧ x.isTrivia = false ∧ x.path = slot.path := by
  cases htoken : slot.token? with
  | none => simp [isSignificant, htoken] at h
  | some token =>
    refine ⟨⟨slot.up, token⟩, by simp [placed?, htoken], ?_, rfl⟩
    simpa [isSignificant, htoken, Placed.isTrivia] using h

end Slot

/-! ## Walks that correspond -/

section Rows

variable {α β : Type} {R : α → β → Prop} {p : α → Bool} {q : β → Bool} {xs : List α} {ys : List β}
  (h : List.Forall₂ R xs ys) (hpq : ∀ a b, R a b → q b = p a)

include h hpq

lemma forall₂_takeWhile : List.Forall₂ R (xs.takeWhile p) (ys.takeWhile q) := by
  induction h with
  | nil => exact .nil
  | cons hab _ ih =>
    rw [List.takeWhile_cons, List.takeWhile_cons, hpq _ _ hab]
    split
    · exact .cons hab ih
    · exact .nil

lemma forall₂_dropWhile : List.Forall₂ R (xs.dropWhile p) (ys.dropWhile q) := by
  induction h with
  | nil => exact .nil
  | cons hab hrest ih =>
    rw [List.dropWhile_cons, List.dropWhile_cons, hpq _ _ hab]
    split
    · exact ih
    · exact .cons hab hrest

lemma all_eq_all : ys.all q = xs.all p := by
  induction h with
  | nil => rfl
  | cons hab _ ih => rw [List.all_cons, List.all_cons, hpq _ _ hab, ih]

end Rows

/-- Equal slots at corresponding places. -/
def Slot.Matches (R : Path → Path → Prop) (a b : Slot) : Prop := a.token? = b.token? ∧ R a.path b.path

/-- Equal tokens at corresponding places. -/
def Placed.Matches (R : Path → Path → Prop) (a b : Placed) : Prop := a.token = b.token ∧ R a.path b.path

variable {R : Path → Path → Prop}

lemma Placed.matches_self (row : List Placed) : List.Forall₂ (Matches Eq) row row :=
  List.forall₂_same.2 fun _ _ => ⟨rfl, rfl⟩

lemma Slot.matches_walk {s t : List Slot} (h : List.Forall₂ (Slot.Matches R) s t) :
    List.Forall₂ (Placed.Matches R) (walk s) (walk t) := by
  induction h with
  | nil => exact .nil
  | @cons a b _ _ hab _ ih =>
    obtain ⟨htoken, hpath⟩ := hab
    rw [walk, walk, placed?, placed?, htoken]
    cases b.token? with
    | none => exact .nil
    | some token =>
      simp only [Option.map_some]
      split
      · exact .cons ⟨rfl, hpath⟩ ih
      · exact .cons ⟨rfl, hpath⟩ .nil

namespace Around

variable {a b : Around}

section

variable (h : List.Forall₂ (Placed.Matches R) (Slot.walk a.after) (Slot.walk b.after))

include h

lemma matches_trailing : List.Forall₂ (Placed.Matches R) a.trailing b.trailing :=
  forall₂_takeWhile h fun _ _ hab => by simp [Placed.isTrivia, Placed.isNewline, hab.1]

lemma rel_significantAfter? : Option.Rel (Placed.Matches R) a.significantAfter? b.significantAfter? :=
  rel_mono (rel_find? h fun _ _ hab => by simp [Placed.isTrivia, hab.1]) fun _ _ hab => hab.1

end

variable (h : List.Forall₂ (Placed.Matches R) (Slot.walk a.before) (Slot.walk b.before))

include h

lemma rel_significantBefore? : Option.Rel (Placed.Matches R) a.significantBefore? b.significantBefore? :=
  rel_mono (rel_find? h fun _ _ hab => by simp [Placed.isTrivia, hab.1]) fun _ _ hab => hab.1

lemma matches_gapBefore : List.Forall₂ (Placed.Matches R) a.gapBefore b.gapBefore :=
  List.rel_reverse (forall₂_takeWhile h fun _ _ hab => by simp [Placed.isTrivia, hab.1])

lemma isSome_significantBefore?_eq : b.significantBefore?.isSome = a.significantBefore?.isSome := by
  rcases rel_cases (rel_significantBefore? h) with ⟨ha, hb⟩ | ⟨x, y, ha, hb, -⟩ <;> simp [ha, hb]

lemma startsLine_eq : b.startsLine = a.startsLine := by
  have hany : ∀ {s t : List Placed}, List.Forall₂ (Placed.Matches R) s t →
      t.any Placed.isNewline = s.any Placed.isNewline := by
    intro s t hst
    rw [List.any_eq_not_all_not, List.any_eq_not_all_not,
      all_eq_all (p := fun placed => !placed.isNewline) hst fun _ _ hab => by simp [Placed.isNewline, hab.1]]
  rw [startsLine, startsLine, leading, leading]
  rcases rel_cases (rel_significantBefore? h) with ⟨ha, hb⟩ | ⟨x, y, ha, hb, -⟩
  · simp [ha, hb]
  · simp only [ha, hb, Option.isNone_some, Bool.false_or]
    exact hany (forall₂_dropWhile (matches_gapBefore h) fun _ _ hab => by simp [Placed.isNewline, hab.1])

lemma opensContinuation_eq : Edit.opensContinuation b = Edit.opensContinuation a := by
  have hall := all_eq_all (p := fun placed => placed.isSpace || placed.isNewline)
    (q := fun placed => placed.isSpace || placed.isNewline) (matches_gapBefore h)
    fun _ _ hab => by simp [Placed.isSpace, Placed.isNewline, hab.1]
  rw [Edit.opensContinuation, Edit.opensContinuation, startsLine_eq h, isSome_significantBefore?_eq h, hall]

end Around

/-- A tree begins with a significant token. -/
def Tree.Fronted (tree : Tree) : Prop := ∃ slot rest, tree.slots = slot :: rest ∧ slot.isSignificant = true

/-! ## What goes -/

namespace Edit

open SwiftTidy.Tree

/-- Whether a part begins and ends with a token. -/
def isWhole (tree : Tree) (path : Path) : Bool :=
  ((tree.slotsAt path).head?.bind Slot.token?).isSome && ((tree.slotsAt path).getLast?.bind Slot.token?).isSome

/-- The places that a removal takes out first. -/
def taken (tree : Tree) (path : Path) : List Path :=
  if isWhole tree path then
    let around := tree.around path
    let space := (around.trailing.takeWhile Placed.isSpace).map Placed.path
    path :: if opensContinuation around then
        around.gapBefore.map Placed.path ++ if endsLine tree around then space else []
      else space
  else [path]

/-- The places that a removal takes out in the end, in the tree without the others. -/
def dangling (tree : Tree) (path : Path) : List Path :=
  let around := tree.around path
  match around.significantBefore? with
  | none => []
  | some previous =>
    let trail := ((tree.prune (taken tree path)).around previous.path).trailing
    if isWhole tree path && !opensContinuation around && endsLine tree around && trail.all Placed.isSpace then
      trail.map Placed.path
    else []

lemma ext_of_eq {a b : Edit} (htree : a.tree = b.tree) (hmoved : a.moved = b.moved) : a = b := by
  cases a
  cases b
  simp_all

lemma take_nil (tree : Tree) : take tree [] = keep tree :=
  ext_of_eq (prune_nil tree) (funext afterPruning_nil)

lemma andThen_keep (edit : Edit) : (edit.andThen fun rest => keep rest) = edit :=
  ext_of_eq rfl (funext fun p => by simp [andThen, keep])

/-- A removal takes out some places and then some others. -/
lemma remove_eq (tree : Tree) (path : Path) :
    remove tree path = (take tree (taken tree path)).andThen fun rest => take rest (dangling tree path) := by
  -- unless something dangles, all is taken out at once
  have honce : ∀ edit : Edit, dangling tree path = [] → edit = take tree (taken tree path) →
      edit = (take tree (taken tree path)).andThen fun rest => take rest (dangling tree path) := by
    intro edit hdangling hedit
    simp only [hdangling, take_nil, andThen_keep, hedit]
  rw [remove]
  split
  next t u hfirst hlast =>
    have hwhole : isWhole tree path = true := by simp [isWhole, hfirst, hlast]
    simp only
    split
    next hopens => exact honce _ (by rw [dangling]; split <;> simp [hopens]) (by simp [taken, hwhole, hopens])
    next hopens =>
      have hopens : opensContinuation (tree.around path) = false := by simpa using hopens
      have htaken : taken tree path =
          path :: ((tree.around path).trailing.takeWhile Placed.isSpace).map Placed.path := by
        simp [taken, hwhole, hopens]
      split
      next previous hprevious =>
        split
        next hends =>
          have hspaces : dangling tree path =
              if ((tree.prune (taken tree path)).around previous.path).trailing.all Placed.isSpace then
                ((tree.prune (taken tree path)).around previous.path).trailing.map Placed.path
              else [] := by
            simp [dangling, hprevious, hwhole, hopens, hends]
          rw [← htaken, hspaces, andThen, andThen]
          simp only [take, dropDanglingSpace]
          by_cases hall : ((tree.prune (taken tree path)).around previous.path).trailing.all Placed.isSpace = true
          · simp only [hall, if_true]
          · have hnil : Path.afterPruning [] = some := funext afterPruning_nil
            simp only [hall, Bool.false_eq_true, if_false, keep, hnil, prune_nil]
        next hends => exact honce _ (by simp [dangling, hprevious, hends]) (by rw [htaken])
      next hprevious => exact honce _ (by simp [dangling, hprevious]) (by rw [htaken])
  next hnot =>
    have hwhole : isWhole tree path = false := by
      rw [isWhole, Bool.and_eq_false_iff]
      cases hfirst : (tree.slotsAt path).head?.bind Slot.token? with
      | none => exact Or.inl rfl
      | some t =>
        cases hlast : (tree.slotsAt path).getLast?.bind Slot.token? with
        | none => exact Or.inr rfl
        | some u => exact absurd hlast (hnot t u hfirst)
    exact honce _ (by rw [dangling]; split <;> simp [hwhole]) (by simp [taken, hwhole])

/-! ## What is seen tells what goes -/

variable {tree later part : Tree} {p p' : Path}

lemma isWhole_eq (hp : tree.sub? p = some part) (hp' : later.sub? p' = some part) : isWhole later p' = isWhole tree p := by
  obtain ⟨-, -, -, -, hat, -⟩ := exists_around hp
  obtain ⟨-, -, -, -, hat', -⟩ := exists_around hp'
  rw [isWhole, isWhole, hat, hat', List.head?_map, List.head?_map, List.getLast?_map, List.getLast?_map]
  cases part.slots.head? <;> cases part.slots.getLast? <;> rfl

/-- A line ends behind two places alike, where the walks on from them and back from the tokens met there match. -/
lemma endsLine_eq_of_walk
    (hafter : List.Forall₂ (Placed.Matches R) (Slot.walk (tree.around p).after) (Slot.walk (later.around p').after))
    (hnext : ∀ next next', Placed.Matches R next next' → next ∈ Slot.walk (tree.around p).after →
      next' ∈ Slot.walk (later.around p').after → List.Forall₂ (Placed.Matches R)
        (Slot.walk (tree.around next.path).before) (Slot.walk (later.around next'.path).before)) :
    endsLine later (later.around p') = endsLine tree (tree.around p) := by
  rw [endsLine, endsLine]
  rcases rel_cases (Around.rel_significantAfter? hafter) with ⟨hnone, hnone'⟩ | ⟨next, next', hsome, hsome', hmatch⟩
  · rw [hnone, hnone']
  · simp only [hsome, hsome']
    exact Around.startsLine_eq
      (hnext next next' hmatch (List.mem_of_find?_eq_some hsome) (List.mem_of_find?_eq_some hsome'))

/-- From two places the same can be seen, as far as a removal looks, at corresponding places. -/
structure SeenAlike (R : Path → Path → Prop) (tree later : Tree) (p p' : Path) : Prop where
  place : R p p'
  whole : isWhole later p' = isWhole tree p
  before : List.Forall₂ (Placed.Matches R) (Slot.walk (tree.around p).before) (Slot.walk (later.around p').before)
  trailing : List.Forall₂ (Placed.Matches R) (tree.around p).trailing (later.around p').trailing
  ends : endsLine later (later.around p') = endsLine tree (tree.around p)

namespace SeenAlike

variable (h : SeenAlike R tree later p p')

include h

/-- Corresponding places are taken out first. -/
lemma forall₂_taken : List.Forall₂ R (taken tree p) (taken later p') := by
  have hpaths : ∀ {s t : List Placed}, List.Forall₂ (Placed.Matches R) s t →
      List.Forall₂ R (s.map Placed.path) (t.map Placed.path) := fun hst => List.rel_map (fun _ _ hab => hab.2) hst
  have hspace := hpaths (forall₂_takeWhile (p := Placed.isSpace) (q := Placed.isSpace) h.trailing
    fun _ _ hab => by simp [Placed.isSpace, hab.1])
  rw [taken, taken, h.whole]
  simp only [Around.opensContinuation_eq h.before, h.ends]
  split
  · refine .cons h.place ?_
    split
    · refine List.rel_append (hpaths (Around.matches_gapBefore h.before)) ?_
      split
      · exact hspace
      · exact .nil
    · exact hspace
  · exact .cons h.place .nil

/-- Once they are gone, the same dangles, if the same trails the token before. -/
lemma forall₂_dangling {S : Path → Path → Prop} (htrail : ∀ previous previous', Placed.Matches R previous previous' →
      (tree.around p).significantBefore? = some previous → (later.around p').significantBefore? = some previous' →
      opensContinuation (tree.around p) = false → List.Forall₂ (Placed.Matches S)
        ((tree.prune (taken tree p)).around previous.path).trailing
        ((later.prune (taken later p')).around previous'.path).trailing) :
    List.Forall₂ S (dangling tree p) (dangling later p') := by
  rw [dangling, dangling]
  rcases rel_cases (Around.rel_significantBefore? h.before) with
    ⟨hnone, hnone'⟩ | ⟨previous, previous', hprevious, hprevious', hmatch⟩
  · rw [hnone, hnone']
    exact .nil
  · simp only [hprevious, hprevious', h.whole, Around.opensContinuation_eq h.before, h.ends]
    cases hopens : opensContinuation (tree.around p) with
    | true => simp
    | false =>
      have hmatches := htrail previous previous' hmatch hprevious hprevious' hopens
      rw [all_eq_all (p := Placed.isSpace) (q := Placed.isSpace) hmatches fun _ _ hab => by simp [Placed.isSpace, hab.1]]
      split
      · exact List.rel_map (fun _ _ hab => hab.2) hmatches
      · exact .nil

end SeenAlike

lemma SeenAlike.taken_eq (h : SeenAlike Eq tree later p p) : taken later p = taken tree p := by
  have htaken := h.forall₂_taken
  rw [List.forall₂_eq_eq_eq] at htaken
  exact htaken.symm

/-! ## Nothing goes twice -/

variable {r c : Path} {x y : Placed}

lemma mem_trailing (hp : tree.sub? p = some part) (hx : x ∈ (tree.around p).trailing) :
    x ∈ tree.placedTokens ∧ Path.Precedes p x.path := mem_walk_after hp ((List.takeWhile_prefix _).subset hx)

/-- What is taken out first is the part itself and trivia on either side of it. -/
lemma mem_taken (hr : r ∈ taken tree p) : r = p ∨
    (∃ y ∈ (tree.around p).gapBefore, y.path = r) ∨ ∃ y ∈ (tree.around p).trailing, y.path = r := by
  have hspace : r ∈ ((tree.around p).trailing.takeWhile Placed.isSpace).map Placed.path →
      ∃ y ∈ (tree.around p).trailing, y.path = r := by
    intro hr
    obtain ⟨y, hy, rfl⟩ := List.mem_map.1 hr
    exact ⟨y, (List.takeWhile_sublist _).subset hy, rfl⟩
  rw [taken] at hr
  split at hr
  · rcases List.mem_cons.1 hr with rfl | hr
    · exact Or.inl rfl
    · split at hr
      · rcases List.mem_append.1 hr with hr | hr
        · exact Or.inr (Or.inl (List.mem_map.1 hr))
        · split at hr
          · exact Or.inr (Or.inr (hspace hr))
          · simp at hr
      · exact Or.inr (Or.inr (hspace hr))
  · exact Or.inl (List.mem_singleton.1 hr)

lemma exists_afterPruning {gone : List Path} {q : Path} (h : ∀ r ∈ gone, Path.Precedes r q) :
    ∃ q', Path.afterPruning gone q = some q' := by
  cases hq : Path.afterPruning gone q with
  | some q' => exact ⟨q', rfl⟩
  | none =>
    obtain ⟨r, hr, -, hwithin⟩ := Path.afterPruning_eq_none_iff.1 hq
    exact absurd hwithin (h r hr).apart.1

lemma nodup_of_sublist {row : List Placed} (h : row.Sublist tree.placedTokens) : (row.map Placed.path).Nodup := by
  rw [List.nodup_iff_pairwise_ne, List.pairwise_map]
  refine (tree.pairwise_placedTokens.sublist h).imp fun {a b} hab heq => ?_
  exact Path.Precedes.irrefl _ (heq ▸ hab)

section

variable (hp : tree.sub? p = some part)

include hp

lemma trailing_sublist : (tree.around p).trailing.Sublist tree.placedTokens := by
  refine (Around.trailing_isPrefix _).sublist.trans ?_
  rw [around_eq_filter hp]
  exact List.filter_sublist.filterMap _

lemma nodup_taken : (taken tree p).Nodup := by
  rw [taken]
  split
  next hwhole =>
    rw [isWhole, Bool.and_eq_true, Option.isSome_iff_exists, Option.isSome_iff_exists] at hwhole
    obtain ⟨⟨t, hfirst⟩, u, hlast⟩ := hwhole
    obtain ⟨front, back, h⟩ := exists_stands hp hfirst hlast
    have hspaces : ((tree.around p).trailing.takeWhile Placed.isSpace).Sublist back := by
      rw [← h.after]
      exact (List.takeWhile_sublist _).trans (Around.trailing_isPrefix _).sublist
    have hindents : (tree.around p).gapBefore.Sublist front := by
      rw [← h.before]
      exact Around.gapBefore_sublist _
    simp only
    split
    · split
      · exact h.nodup hindents hspaces
      · simpa using h.nodup hindents (List.nil_sublist _)
    · simpa using h.nodup (List.nil_sublist _) hspaces
  next => simp

lemma afterPruning_taken (hopens : opensContinuation (tree.around p) = false) (hx : Path.Precedes x.path p) :
    Path.afterPruning (taken tree p) x.path = some x.path := by
  refine Path.afterPruning_eq_self fun r hr => ?_
  simp only [taken, hopens, Bool.false_eq_true, if_false] at hr
  split at hr
  · rcases List.mem_cons.1 hr with rfl | hr
    · exact hx
    · obtain ⟨y, hy, rfl⟩ := List.mem_map.1 hr
      exact hx.trans (mem_trailing hp ((List.takeWhile_sublist _).subset hy)).2
  · obtain rfl : r = p := by simpa using hr
    exact hx

/-- What dangles trails a token that is still there. -/
lemma dangling_cases : dangling tree p = [] ∨
    ∃ previous ∈ tree.placedTokens, (tree.around p).significantBefore? = some previous ∧
      Path.Precedes previous.path p ∧ opensContinuation (tree.around p) = false ∧
      (tree.prune (taken tree p)).sub? previous.path = some (.leaf previous.token) ∧
      dangling tree p = ((tree.prune (taken tree p)).around previous.path).trailing.map Placed.path := by
  cases hprevious : (tree.around p).significantBefore? with
  | none => exact Or.inl (by simp [dangling, hprevious])
  | some previous =>
    by_cases hopens : opensContinuation (tree.around p) = true
    · exact Or.inl (by simp [dangling, hprevious, hopens])
    · have hopens : opensContinuation (tree.around p) = false := by simpa using hopens
      have hmem := mem_walk_before hp (Around.mem_walk_of_significantBefore? hprevious)
      have hstays := Trimming.sub?_prune (nodup_taken hp) (afterPruning_taken hp hopens hmem.2)
        (sub?_of_mem_placedTokens hmem.1)
      rw [dangling, hprevious]
      simp only
      split
      · exact Or.inr ⟨previous, hmem.1, rfl, hmem.2, hopens, hstays, rfl⟩
      · exact Or.inl rfl

lemma nodup_dangling : (dangling tree p).Nodup := by
  rcases dangling_cases hp with h | ⟨previous, -, -, -, -, hstays, h⟩
  · simp [h]
  · rw [h]
    exact nodup_of_sublist (trailing_sublist hstays)

end

/-! ## Exchanges that go unnoticed -/

variable {old new : Tree} {q : Path}

lemma sub?_replaceAt_of_precedes (new : Tree) (hp : tree.sub? p = some part)
    (hpq : Path.Precedes p q ∨ Path.Precedes q p) : (tree.replaceAt q new).sub? p = some part := by
  have hapart : ¬ q <+: p ∧ ¬ p <+: q := by
    rcases hpq with h | h
    · exact h.apart.symm
    · exact h.apart
  rw [sub?_replaceAt_of_apart tree new hapart.1 hapart.2, hp]

/-- What is seen from a place before a part that is exchanged, where the new part begins with a significant token. -/
lemma exists_walk_left (part : Tree) (hold : tree.sub? q = some old) (hpq : Path.Precedes p q) : ∃ before between,
    (∀ slot ∈ between, Path.Precedes slot.path q ∧ ∀ x, slot.placed? = some x → x ∈ tree.placedTokens) ∧
      ∀ new : Tree, new.Fronted → (tree.replaceAt q new).sub? p = some part → ∃ (last : Slot) (x : Placed),
        last.isSignificant = true ∧ last.placed? = some x ∧ x.isTrivia = false ∧
          ((tree.replaceAt q new).around p).before = before ∧
          Slot.walk ((tree.replaceAt q new).around p).after = Slot.walk (between ++ [last]) ∧
          ((tree.replaceAt q new).around x.path).before = (tree.around q).before := by
  obtain ⟨before, between, after, hbetween, haround⟩ := around_replaceAt_left hold hpq
  refine ⟨before, between, fun slot hslot => ⟨(hbetween slot hslot).1, fun x hx => ?_⟩, ?_⟩
  · exact List.mem_filterMap.2 ⟨slot, (hbetween slot hslot).2, hx⟩
  rintro new ⟨slot, rest, hslots, hsignificant⟩ hpart
  obtain ⟨x, hx, htrivia, hpath⟩ := Slot.exists_placed_of_isSignificant hsignificant
  obtain ⟨token, htoken, rfl⟩ := Option.map_eq_some_iff.1 hx
  have hmem : (⟨slot.up, token⟩ : Placed) ∈ new.placedTokens := List.mem_filterMap.2 ⟨slot, by simp [hslots], hx⟩
  have hleaf : new.sub? slot.path = some (.leaf token) := sub?_of_mem_placedTokens hmem
  refine ⟨slot.under q, Placed.under q ⟨slot.up, token⟩, hsignificant, by rw [Slot.placed?_under, hx]; rfl, htrivia,
    ?_, ?_, ?_⟩
  · rw [haround new part hpart]
  · have hsplit : between ++ ((slot :: rest).map (Slot.under q) ++ after) =
        (between ++ [slot.under q]) ++ (rest.map (Slot.under q) ++ after) := by simp
    rw [haround new part hpart, hslots, hsplit, Slot.walk_append]
    exact ⟨slot.under q, by simp, hsignificant⟩
  · rw [Placed.path_under, hpath, around_append (sub?_replaceAt_self new hold) hleaf,
      before_around_first hslots htoken, around_replaceAt_self hold]
    rfl

/-- From a place before a part only the first token of the part can be seen. -/
lemma around_left (hold : tree.sub? q = some old) (holdFront : old.Fronted) (hnewFront : new.Fronted)
    (hp : tree.sub? p = some part) (hpq : Path.Precedes p q) :
    ((tree.replaceAt q new).around p).before = (tree.around p).before ∧
      ((tree.replaceAt q new).around p).trailing = (tree.around p).trailing ∧
      (∀ x ∈ (tree.around p).trailing, Path.Precedes x.path q) ∧
      endsLine (tree.replaceAt q new) ((tree.replaceAt q new).around p) = endsLine tree (tree.around p) := by
  obtain ⟨before, between, hbetween, hsees⟩ := exists_walk_left part hold hpq
  obtain ⟨last, x, hlast, hx, htrivia, hbefore, hafter, hnext⟩ :=
    hsees old holdFront (by rw [replaceAt_self hold]; exact hp)
  obtain ⟨last', x', hlast', hx', htrivia', hbefore', hafter', hnext'⟩ :=
    hsees new hnewFront (sub?_replaceAt_of_precedes new hp (Or.inl hpq))
  rw [replaceAt_self hold] at hbefore hafter hnext
  refine ⟨hbefore'.trans hbefore.symm, ?_⟩
  rw [Around.trailing, Around.trailing, endsLine, endsLine, Around.significantAfter?, Around.significantAfter?, hafter,
    hafter']
  have hmem : ∀ y ∈ between.filterMap Slot.placed?, y ∈ tree.placedTokens ∧ Path.Precedes y.path q := by
    intro y hy
    obtain ⟨slot, hslot, hplaced⟩ := List.mem_filterMap.1 hy
    rw [Slot.path_of_placed? hplaced]
    exact ⟨(hbetween slot hslot).2 y hplaced, (hbetween slot hslot).1⟩
  rcases Slot.walk_concat_cases between with ⟨row, hrow, hwalk⟩ | ⟨row, hrow, hwalk⟩
  · -- the walk ends before the part
    rw [hwalk last hlast, hwalk last' hlast']
    refine ⟨rfl, fun y hy => (hmem y (hrow y ((List.takeWhile_sublist _).subset hy))).2, ?_⟩
    cases hfind : row.find? fun placed => !placed.isTrivia with
    | none => rfl
    | some y =>
      obtain ⟨hy, hyq⟩ := hmem y (hrow y (List.mem_of_find?_eq_some hfind))
      obtain ⟨before, between, after, -, haround⟩ := around_replaceAt_left hold hyq
      have hleaf := sub?_of_mem_placedTokens hy
      have holdAround := haround old _ (by rw [replaceAt_self hold]; exact hleaf)
      rw [replaceAt_self hold] at holdAround
      refine Around.startsLine_eq (R := Eq) ?_
      rw [haround new _ (sub?_replaceAt_of_precedes new hleaf (Or.inl hyq)), holdAround]
      exact Placed.matches_self _
  · -- the walk ends with the first token of the part
    have hnone : row.find? (fun placed => !placed.isTrivia) = none :=
      List.find?_eq_none.2 fun y hy => by simp [(hrow y hy).2]
    have hstop : ∀ y : Placed, y.isTrivia = false →
        ((row ++ [y]).takeWhile fun placed => placed.isTrivia && !placed.isNewline) =
          row.takeWhile fun placed => placed.isTrivia && !placed.isNewline := by
      intro y hy
      rw [List.takeWhile_append, List.takeWhile_cons_of_neg (by simp [hy])]
      split
      next hall => rw [List.append_nil, (List.takeWhile_prefix _).eq_of_length hall]
      next => rfl
    rw [hwalk last x hx htrivia, hwalk last' x' hx' htrivia', hstop x htrivia, hstop x' htrivia']
    refine ⟨rfl, fun y hy => (hmem y (hrow y ((List.takeWhile_sublist _).subset hy)).1).2, ?_⟩
    simp only [List.find?_append, hnone, Option.none_or, List.find?_cons, htrivia, htrivia', Bool.not_false]
    refine Around.startsLine_eq (R := Eq) ?_
    rw [hnext, hnext']
    exact Placed.matches_self _

/-! ## Nothing goes beyond a significant token -/

section

variable (hp : tree.sub? p = some part) (hx : x ∈ tree.placedTokens) (hsignificant : x.isTrivia = false)
  (hxp : Path.Precedes x.path p)

include hp hx hsignificant hxp

lemma precedes_of_mem_taken (hr : r ∈ taken tree p) : Path.Precedes x.path r := by
  rcases mem_taken hr with rfl | ⟨y, hy, rfl⟩ | ⟨y, hy, rfl⟩
  · exact hxp
  · have htrivia : y.isTrivia = true := List.mem_takeWhile_imp (List.mem_reverse.1 hy)
    rcases precedes_of_mem_walk hp hx hsignificant hxp (Around.mem_walk_of_mem_gapBefore hy) with rfl | h
    · simp [htrivia] at hsignificant
    · exact h
  · exact hxp.trans (mem_trailing hp hy).2

lemma precedes_of_mem_dangling (hr : r ∈ dangling tree p) : Path.Precedes x.path r := by
  rcases dangling_cases hp with h | ⟨previous, -, hprevious, -, -, hstays, h⟩
  · simp [h] at hr
  · rw [h] at hr
    obtain ⟨y, hy, rfl⟩ := List.mem_map.1 hr
    have hprecedes := (mem_trailing hstays hy).2
    rcases precedes_of_mem_walk hp hx hsignificant hxp (Around.mem_walk_of_significantBefore? hprevious) with rfl | h
    · exact hprecedes
    · exact h.trans hprecedes

lemma moved_remove_of_ahead (hc : c <+: x.path ∨ Path.Precedes c x.path) : (remove tree p).moved c = some c := by
  have hstays : ∀ gone : List Path, (∀ r ∈ gone, Path.Precedes x.path r) → Path.afterPruning gone c = some c := by
    intro gone hgone
    rcases hc with hc | hc
    · exact Path.afterPruning_of_isPrefix (Path.afterPruning_eq_self hgone) hc
    · exact Path.afterPruning_eq_self fun r hr => hc.trans (hgone r hr)
  rw [remove_eq, andThen, take, take]
  simp only
  rw [hstays _ fun r hr => precedes_of_mem_taken hp hx hsignificant hxp hr, Option.bind_some]
  exact hstays _ fun r hr => precedes_of_mem_dangling hp hx hsignificant hxp hr

/-- What ends before it stays as it is. -/
lemma sub?_remove_of_ahead {inner : Tree} (hinner : tree.sub? c = some inner)
    (hc : c = x.path ∨ Path.Precedes c x.path) : (remove tree p).tree.sub? c = some inner := by
  have hstays : ∀ (gone : List Path) (rest : Tree), gone.Nodup → (∀ r ∈ gone, Path.Precedes x.path r) →
      rest.sub? c = some inner → (rest.prune gone).sub? c = some inner := by
    intro gone rest hnodup hgone hrest
    have hahead : ∀ r ∈ gone, Path.Precedes c r := by
      intro r hr
      rcases hc with rfl | hc
      · exact hgone r hr
      · exact hc.trans (hgone r hr)
    exact sub?_prune_of_not hnodup (fun r hr => (hahead r hr).apart.1) (Path.afterPruning_eq_self hahead) hrest
  rw [remove_eq, andThen, take, take]
  exact hstays _ _ (nodup_dangling hp) (fun r hr => precedes_of_mem_dangling hp hx hsignificant hxp hr)
    (hstays _ _ (nodup_taken hp) (fun r hr => precedes_of_mem_taken hp hx hsignificant hxp hr) hinner)

end

section

variable (hp : tree.sub? p = some part) (hy : y ∈ tree.placedTokens) (hsignificant : y.isTrivia = false)
  (hpy : Path.Precedes p y.path)

include hp hy hsignificant hpy

lemma precedes_of_mem_trailing {z : Placed} (hz : z ∈ (tree.around p).trailing) : Path.Precedes z.path y.path := by
  have htrivia : z.isTrivia = true :=
    (Bool.and_eq_true_iff.1 (List.mem_takeWhile_imp (p := fun placed : Placed => placed.isTrivia && !placed.isNewline)
      hz)).1
  rcases precedes_of_mem_walk_after hp hy hsignificant hpy ((List.takeWhile_prefix _).subset hz) with rfl | h
  · simp [htrivia] at hsignificant
  · exact h

lemma mem_taken_precedes (hr : r ∈ taken tree p) : Path.Precedes r y.path := by
  rcases mem_taken hr with rfl | ⟨z, hz, rfl⟩ | ⟨z, hz, rfl⟩
  · exact hpy
  · exact (mem_walk_before hp (Around.mem_walk_of_mem_gapBefore hz)).2.trans hpy
  · exact precedes_of_mem_trailing hp hy hsignificant hpy hz

lemma mem_dangling_precedes {y' : Path} (hy' : Path.afterPruning (taken tree p) y.path = some y')
    (hr : r ∈ dangling tree p) : Path.Precedes r y' := by
  rcases dangling_cases hp with h | ⟨previous, -, -, hpp, hopens, hstays, h⟩
  · simp [h] at hr
  · rw [h] at hr
    obtain ⟨z, hz, rfl⟩ := List.mem_map.1 hr
    have hmem := (Relocation.prune (nodup_taken hp) tree).mem_tokens hy hy'
    have hprecedes := (Path.afterPruning_mono (nodup_taken hp) (afterPruning_taken hp hopens hpp) hy').1 (hpp.trans hpy)
    simpa using precedes_of_mem_trailing hstays hmem hsignificant (by simpa using hprecedes) hz

end

/-! ## The frame of a removal -/

/-- A removal that takes out the same places before and after an exchange can be made before or after it. -/
lemma remove_replaceAt_of_eq (hp : tree.sub? p = some part) (hold : tree.sub? q = some old) {q' : Path}
    (htaken : taken (tree.replaceAt q new) p = taken tree p) (hout : ∀ g ∈ taken tree p, ¬ q <+: g)
    (hr : Path.afterPruning (taken tree p) q = some r) (hdangling : dangling (tree.replaceAt q new) p = dangling tree p)
    (hout' : ∀ g ∈ dangling tree p, ¬ r <+: g) (hq' : Path.afterPruning (dangling tree p) r = some q') :
    (remove tree p).moved q = some q' ∧ (remove tree p).tree.sub? q' = some old ∧
      remove (tree.replaceAt q new) p = ⟨(remove tree p).tree.replaceAt q' new, (remove tree p).moved⟩ := by
  have hrest := sub?_prune_of_not (nodup_taken hp) hout hr hold
  refine ⟨?_, ?_, ?_⟩
  · rw [remove_eq, andThen, take, take]
    simp only [hr, Option.bind_some, hq']
  · rw [remove_eq, andThen, take, take]
    exact sub?_prune_of_not (nodup_dangling hp) hout' hq' hrest
  · rw [remove_eq, remove_eq, htaken, hdangling]
    simp only [andThen, take]
    rw [prune_replaceAt (nodup_taken hp) hold hout hr, prune_replaceAt (nodup_dangling hp) hrest hout' hq']

/-- A removal does not notice an exchange behind it, if both what is exchanged and what takes its place begin with a
significant token. -/
theorem remove_replaceAt_left (hold : tree.sub? q = some old) (holdFront : old.Fronted) (hnewFront : new.Fronted)
    (hp : tree.sub? p = some part) (hpq : Path.Precedes p q) :
    ∃ q', (remove tree p).moved q = some q' ∧ (remove tree p).tree.sub? q' = some old ∧
      remove (tree.replaceAt q new) p = ⟨(remove tree p).tree.replaceAt q' new, (remove tree p).moved⟩ := by
  obtain ⟨hbefore, htrailing, htrail, hends⟩ := around_left hold holdFront hnewFront hp hpq
  have hseen : SeenAlike Eq tree (tree.replaceAt q new) p p :=
    ⟨rfl, isWhole_eq hp (sub?_replaceAt_of_precedes new hp (Or.inl hpq)), hbefore ▸ Placed.matches_self _,
      htrailing ▸ Placed.matches_self _, hends⟩
  have htaken := hseen.taken_eq
  have hahead : ∀ r ∈ taken tree p, Path.Precedes r q := by
    intro r hr
    rcases mem_taken hr with rfl | ⟨y, hy, rfl⟩ | ⟨y, hy, rfl⟩
    · exact hpq
    · exact (mem_walk_before hp (Around.mem_walk_of_mem_gapBefore hy)).2.trans hpq
    · exact htrail y hy
  have hout : ∀ r ∈ taken tree p, ¬ q <+: r := fun r hr => (hahead r hr).apart.2
  obtain ⟨r, hr⟩ := exists_afterPruning hahead
  have hrest := sub?_prune_of_not (nodup_taken hp) hout hr hold
  -- what trails the token before, once the first places are gone
  have hprevious : ∀ previous, (tree.around p).significantBefore? = some previous →
      opensContinuation (tree.around p) = false →
      (((tree.prune (taken tree p)).replaceAt r new).around previous.path).trailing =
          ((tree.prune (taken tree p)).around previous.path).trailing ∧
        ∀ x ∈ ((tree.prune (taken tree p)).around previous.path).trailing, Path.Precedes x.path r := by
    intro previous hprevious hopens
    obtain ⟨hmem, hpreviousPath⟩ := mem_walk_before hp (Around.mem_walk_of_significantBefore? hprevious)
    have hstaysPath := afterPruning_taken hp hopens hpreviousPath
    have hstays := Trimming.sub?_prune (nodup_taken hp) hstaysPath (sub?_of_mem_placedTokens hmem)
    have hpreviousr := (Path.afterPruning_mono (nodup_taken hp) hstaysPath hr).1 (hpreviousPath.trans hpq)
    obtain ⟨-, htrailing, htrail, -⟩ := around_left hrest holdFront hnewFront hstays hpreviousr
    exact ⟨htrailing, htrail⟩
  have hdangling : dangling (tree.replaceAt q new) p = dangling tree p := by
    rw [eq_comm, ← List.forall₂_eq_eq_eq]
    refine hseen.forall₂_dangling fun previous previous' hmatch h _ hopens => ?_
    rw [← hmatch.2, htaken, prune_replaceAt (nodup_taken hp) hold hout hr, (hprevious previous h hopens).1]
    exact Placed.matches_self _
  have hahead' : ∀ g ∈ dangling tree p, Path.Precedes g r := by
    intro g hg
    rcases dangling_cases hp with h | ⟨previous, -, h, -, hopens, -, heq⟩
    · simp [h] at hg
    · rw [heq] at hg
      obtain ⟨x, hx, rfl⟩ := List.mem_map.1 hg
      exact (hprevious previous h hopens).2 x hx
  obtain ⟨q', hq'⟩ := exists_afterPruning hahead'
  exact ⟨q', remove_replaceAt_of_eq hp hold htaken hout hr hdangling (fun g hg => (hahead' g hg).apart.2) hq'⟩

/-! ## Removals within a part -/

section Within

variable {whole : Tree} {x y : Placed}

/-- A place of a part, seen from the part and from the whole tree. -/
def Under (q p p' : Path) : Prop := p' = q ++ p

lemma eq_map_of_under {row row' : List Path} (h : List.Forall₂ (Under q) row row') : row' = row.map (q ++ ·) := by
  induction h with
  | nil => rfl
  | cons hab _ ih => rw [List.map_cons, ih, hab]

lemma matches_under (row : List Slot) : List.Forall₂ (Slot.Matches (Under q)) row (row.map (Slot.under q)) :=
  List.forall₂_map_right_iff.2 (List.forall₂_same.2 fun slot _ => ⟨rfl, Slot.path_under q slot⟩)

lemma exists_slot (hx : x ∈ tree.placedTokens) (hsignificant : x.isTrivia = false) :
    ∃ slot ∈ tree.slots, slot.isSignificant = true ∧ slot.path = x.path := by
  obtain ⟨slot, hslot, hplaced⟩ := List.mem_filterMap.1 hx
  have hpath := Slot.path_of_placed? hplaced
  obtain ⟨token, htoken, rfl⟩ := Option.map_eq_some_iff.1 hplaced
  exact ⟨slot, hslot, by simpa [Slot.isSignificant, htoken, Placed.isTrivia] using hsignificant, hpath.symm⟩

lemma walk_before_append (htree : whole.sub? q = some tree) (hp : tree.sub? p = some part) (hx : x ∈ tree.placedTokens)
    (hsignificant : x.isTrivia = false) (hxp : Path.Precedes x.path p) : List.Forall₂ (Placed.Matches (Under q))
      (Slot.walk (tree.around p).before) (Slot.walk (whole.around (q ++ p)).before) := by
  obtain ⟨slot, hslot, hsignificant, hpath⟩ := exists_slot hx hsignificant
  have hmem : slot ∈ (tree.around p).before := by simpa [around_eq_filter hp, hpath] using ⟨hslot, hxp⟩
  rw [around_append htree hp, Slot.walk_append ⟨slot.under q, List.mem_map_of_mem hmem, hsignificant⟩]
  exact Slot.matches_walk (matches_under _)

lemma walk_after_append (htree : whole.sub? q = some tree) (hp : tree.sub? p = some part) (hy : y ∈ tree.placedTokens)
    (hsignificant : y.isTrivia = false) (hpy : Path.Precedes p y.path) : List.Forall₂ (Placed.Matches (Under q))
      (Slot.walk (tree.around p).after) (Slot.walk (whole.around (q ++ p)).after) := by
  obtain ⟨slot, hslot, hsignificant, hpath⟩ := exists_slot hy hsignificant
  have hmem : slot ∈ (tree.around p).after := by simpa [around_eq_filter hp, hpath] using ⟨hslot, hpy⟩
  rw [around_append htree hp, Slot.walk_append ⟨slot.under q, List.mem_map_of_mem hmem, hsignificant⟩]
  exact Slot.matches_walk (matches_under _)

/-- A place in a tree has significant tokens of the tree on both sides. -/
def Sheltered (tree : Tree) (p : Path) : Prop :=
  (∃ x ∈ tree.placedTokens, x.isTrivia = false ∧ Path.Precedes x.path p) ∧
    ∃ y ∈ tree.placedTokens, y.isTrivia = false ∧ Path.Precedes p y.path

section

variable (htree : whole.sub? q = some tree) (hp : tree.sub? p = some part) (hsheltered : Sheltered tree p)

include htree hp hsheltered

lemma seenAlike_append : SeenAlike (Under q) tree whole p (q ++ p) := by
  obtain ⟨⟨x, hx, hxs, hxp⟩, y, hy, hys, hpy⟩ := hsheltered
  have hafter := walk_after_append htree hp hy hys hpy
  have hwhole : whole.sub? (q ++ p) = some part := (sub?_append_some htree p).trans hp
  refine ⟨rfl, isWhole_eq hp hwhole, walk_before_append htree hp hx hxs hxp, Around.matches_trailing hafter,
    endsLine_eq_of_walk hafter fun next next' hmatch hnext _ => ?_⟩
  obtain ⟨hmem, hpnext⟩ := mem_walk_after hp hnext
  rw [hmatch.2]
  exact walk_before_append htree (sub?_of_mem_placedTokens hmem) hx hxs (hxp.trans hpnext)

lemma taken_append : taken whole (q ++ p) = (taken tree p).map (q ++ ·) :=
  eq_map_of_under (seenAlike_append htree hp hsheltered).forall₂_taken

end

lemma nil_not_mem_taken (hp : tree.sub? p = some part) (hne : p ≠ []) : [] ∉ taken tree p := by
  intro hmem
  rcases mem_taken hmem with h | ⟨y, hy, h⟩ | ⟨y, hy, h⟩
  · exact hne h.symm
  · simpa [h] using (mem_walk_before hp (Around.mem_walk_of_mem_gapBefore hy)).2
  · simpa [h] using (mem_trailing hp hy).2

lemma nil_not_mem_dangling (hp : tree.sub? p = some part) : [] ∉ dangling tree p := by
  intro hmem
  rcases dangling_cases hp with h | ⟨previous, -, -, -, -, hstays, h⟩
  · simp [h] at hmem
  · rw [h] at hmem
    obtain ⟨y, hy, hnil⟩ := List.mem_map.1 hmem
    simpa [hnil] using (mem_trailing hstays hy).2

lemma dangling_append (htree : whole.sub? q = some tree) (hp : tree.sub? p = some part) (hne : p ≠ [])
    (hsheltered : Sheltered tree p) : dangling whole (q ++ p) = (dangling tree p).map (q ++ ·) := by
  refine eq_map_of_under
    ((seenAlike_append htree hp hsheltered).forall₂_dangling fun previous previous' hmatch hprevious _ hopens => ?_)
  -- what trails the token before it ends within the part as well
  obtain ⟨-, y, hy, hys, hpy⟩ := id hsheltered
  obtain ⟨hmem, hpreviousPath⟩ := mem_walk_before hp (Around.mem_walk_of_significantBefore? hprevious)
  have hstaysPath := afterPruning_taken hp hopens hpreviousPath
  have hstays := Trimming.sub?_prune (nodup_taken hp) hstaysPath (sub?_of_mem_placedTokens hmem)
  obtain ⟨y', hmoved⟩ := exists_afterPruning fun r hr => mem_taken_precedes hp hy hys hpy hr
  have hy' := (Relocation.prune (nodup_taken hp) tree).mem_tokens hy hmoved
  have hpreviousy' := (Path.afterPruning_mono (nodup_taken hp) hstaysPath hmoved).1 (hpreviousPath.trans hpy)
  rw [hmatch.2, taken_append htree hp hsheltered, prune_map_append (nil_not_mem_taken hp hne) htree]
  exact Around.matches_trailing (walk_after_append (sub?_replaceAt_self _ htree) hstays hy' hys (by simpa using hpreviousy'))

/-- A removal between significant tokens of a part takes place within the part. -/
theorem remove_append (htree : whole.sub? q = some tree) (hp : tree.sub? p = some part) (hsheltered : Sheltered tree p) :
    (remove whole (q ++ p)).tree = whole.replaceAt q (remove tree p).tree ∧
      ∀ s, (q <+: s → s = q) → (remove whole (q ++ p)).moved s = some s := by
  have hne : p ≠ [] := by
    rintro rfl
    obtain ⟨⟨x, -, -, h⟩, -⟩ := hsheltered
    simp at h
  have htaken := nil_not_mem_taken hp hne
  have hdangling := nil_not_mem_dangling hp
  rw [remove_eq, remove_eq, taken_append htree hp hsheltered, dangling_append htree hp hne hsheltered]
  simp only [andThen, take]
  constructor
  · rw [prune_map_append htaken htree, prune_map_append hdangling (sub?_replaceAt_self _ htree), replaceAt_replaceAt]
  · intro s hs
    rw [Path.afterPruning_map_append_of_above htaken hs, Option.bind_some,
      Path.afterPruning_map_append_of_above hdangling hs]

end Within

end Edit

end SwiftTidy

import SwiftTidy.Proofs.Windows
import Mathlib.Data.List.Sort

/-!
# The view from a place

What can be seen from a place in a tree is cut off by significant tokens on both sides. So it is enough to know a
stretch of the tree between two such tokens (`Stretch`). Where two trees have the same parts in such a stretch, each at a
place of its own (`Tree.Agree`), the same can be seen from corresponding places, and a removal takes out
corresponding places (`Edit.moved_remove_eq_none_iff`). In particular it does not notice if a part before it is
exchanged, from which a significant token parts it (`Edit.remove_replaceAt_right`).
-/

namespace SwiftTidy

/-! ## Rows that correspond -/

section Rows

variable {α β : Type} {R : α → β → Prop} {xs : List α} {ys : List β}

lemma exists_of_mem_left (h : List.Forall₂ R xs ys) {a : α} (ha : a ∈ xs) : ∃ b ∈ ys, R a b := by
  induction h with
  | nil => simp at ha
  | cons hab _ ih =>
    rcases List.mem_cons.1 ha with rfl | ha
    · exact ⟨_, List.mem_cons_self, hab⟩
    · obtain ⟨b, hb, hR⟩ := ih ha
      exact ⟨b, List.mem_cons_of_mem _ hb, hR⟩

variable {x : Option α} {y : Option β}

lemma exists_of_rel_left (h : Option.Rel R x y) {a : α} (ha : a ∈ x) : ∃ b ∈ y, R a b := by
  cases h with
  | none => simp at ha
  | some hab => exact ⟨_, rfl, Option.some.inj ha ▸ hab⟩

lemma exists_of_rel_right (h : Option.Rel R x y) {b : β} (hb : b ∈ y) : ∃ a ∈ x, R a b := by
  cases h with
  | none => simp at hb
  | some hab => exact ⟨_, rfl, Option.some.inj hb ▸ hab⟩

end Rows

lemma Path.Keeps.unique {R : Path → Path → Prop} (hR : Keeps R) {p p' q' : Path} (hp : R p p') (hq : R p q') : p' = q' :=
  ((hR.prefix_iff hp hq).2 (List.prefix_refl p)).eq_of_length (by rw [hR.length hp, hR.length hq])

/-- Equal parts at corresponding places. -/
def Part.Matches (R : Path → Path → Prop) (a b : Part) : Prop := a.tree = b.tree ∧ R a.path b.path

variable {R : Path → Path → Prop}

/-! ## Stretches -/

/-- A stretch of a tree between two places. Where one is missing, it goes on to the end on that side. -/
structure Stretch where
  /-- The place that the stretch begins behind. -/
  start? : Option Path
  /-- The place that the stretch ends before. -/
  stop? : Option Path

/-- A place lies in a stretch. -/
def Stretch.Holds (stretch : Stretch) (p : Path) : Prop :=
  (∀ x ∈ stretch.start?, Path.Precedes x p) ∧ ∀ y ∈ stretch.stop?, Path.Precedes p y

instance (stretch : Stretch) (p : Path) : Decidable (stretch.Holds p) := inferInstanceAs (Decidable (_ ∧ _))

namespace Tree

variable {tree later : Tree} {stretch stretch' : Stretch}

/-- The slot at a place. -/
def slotAt (tree : Tree) (p : Path) : Slot := ⟨p.reverse, (tree.sub? p).bind token?⟩

@[simp] lemma path_slotAt (tree : Tree) (p : Path) : (tree.slotAt p).path = p := by simp [slotAt, Slot.path]

/-- A significant token stands at a place. -/
def Signified (tree : Tree) (p : Path) : Prop := ∃ token, tree.sub? p = some (.leaf token) ∧ token.isTrivia = false

lemma Signified.isSignificant {p : Path} (h : tree.Signified p) : (tree.slotAt p).isSignificant = true := by
  obtain ⟨token, hsub, htoken⟩ := h
  simp [slotAt, Slot.isSignificant, hsub, token?, htoken]

lemma Signified.exists_slots {x : Path} (h : tree.Signified x) :
    ∃ front back, tree.slots = front ++ tree.slotAt x :: back ∧
    (∀ slot ∈ front, Path.Precedes slot.path x) ∧ ∀ slot ∈ back, Path.Precedes x slot.path := by
  obtain ⟨token, hsub, -⟩ := h
  obtain ⟨front, back, hslots, -, -, hfront, hback⟩ := exists_around hsub
  refine ⟨front, back, ?_, hfront, hback⟩
  rw [hslots]
  simp [slotAt, hsub, token?, Slot.under]

/-- Both ends of a stretch are significant tokens. -/
def Bounds (tree : Tree) (stretch : Stretch) : Prop :=
  (∀ x ∈ stretch.start?, tree.Signified x) ∧ ∀ y ∈ stretch.stop?, tree.Signified y

variable {a : Path} {part : Tree}

/-- A walk back from a place in a stretch sees nothing before it. -/
lemma Bounds.walk_before (h : tree.Bounds stretch) (ha : tree.sub? a = some part)
    (hstart : ∀ x ∈ stretch.start?, Path.Precedes x a) (hstop : ∀ y ∈ stretch.stop?, a = y ∨ Path.Precedes a y) :
    Slot.walk (tree.around a).before = Slot.walk
      (((tree.slots.filter (stretch.Holds ·.path)).filter (Path.Precedes ·.path a)).reverse ++
        (stretch.start?.map tree.slotAt).toList) := by
  have hlast : ∀ p, Path.Precedes p a → ∀ y ∈ stretch.stop?, Path.Precedes p y := by
    intro p hp y hy
    rcases hstop y hy with rfl | hay
    · exact hp
    · exact hp.trans hay
  have hbefore : (tree.around a).before = (tree.slots.filter (Path.Precedes ·.path a)).reverse := by
    rw [around_eq_filter ha]
  rw [hbefore, List.filter_comm, ← List.filter_reverse (p := fun slot : Slot => stretch.Holds slot.path)]
  refine Slot.walk_filter (fun hnone slot hslot => ?_) fun s hs => ?_
  · obtain ⟨-, hslot⟩ := List.mem_filter.1 (List.mem_reverse.1 hslot)
    have hholds : stretch.Holds slot.path := ⟨by simp_all, hlast _ (by simpa using hslot)⟩
    simpa using hholds
  · obtain ⟨x, hx, rfl⟩ := Option.map_eq_some_iff.1 hs
    obtain ⟨front, back, hslots, hfront, hback⟩ := (h.1 x hx).exists_slots
    have hxa := hstart x hx
    refine ⟨(h.1 x hx).isSignificant, ?_, (back.filter (Path.Precedes ·.path a)).reverse, front.reverse, ?_,
      fun slot hslot => ?_, fun slot hslot => ?_⟩
    · simpa using fun hholds : stretch.Holds x => Path.Precedes.irrefl x (hholds.1 x hx)
    · rw [hslots, List.filter_append, List.filter_cons_of_pos (by simpa using hxa),
        List.filter_eq_self.2 fun slot hslot => by simpa using (hfront slot hslot).trans hxa]
      simp
    · obtain ⟨hmem, hlt⟩ := List.mem_filter.1 (List.mem_reverse.1 hslot)
      have hholds : stretch.Holds slot.path :=
        ⟨fun y hy => Option.mem_unique hx hy ▸ hback slot hmem, hlast _ (by simpa using hlt)⟩
      simpa using hholds
    · simpa using fun hholds : stretch.Holds slot.path =>
        (hfront slot (List.mem_reverse.1 hslot)).asymm (hholds.1 x hx)

/-- Nor does a walk on see anything behind it. -/
lemma Bounds.walk_after (h : tree.Bounds stretch) (ha : tree.sub? a = some part)
    (hstart : ∀ x ∈ stretch.start?, a = x ∨ Path.Precedes x a) (hstop : ∀ y ∈ stretch.stop?, Path.Precedes a y) :
    Slot.walk (tree.around a).after = Slot.walk
      ((tree.slots.filter (stretch.Holds ·.path)).filter (Path.Precedes a ·.path) ++
        (stretch.stop?.map tree.slotAt).toList) := by
  have hfirst : ∀ p, Path.Precedes a p → ∀ x ∈ stretch.start?, Path.Precedes x p := by
    intro p hp x hx
    rcases hstart x hx with rfl | hxa
    · exact hp
    · exact hxa.trans hp
  have hafter : (tree.around a).after = tree.slots.filter (Path.Precedes a ·.path) := by rw [around_eq_filter ha]
  rw [hafter, List.filter_comm]
  refine Slot.walk_filter (fun hnone slot hslot => ?_) fun s hs => ?_
  · obtain ⟨-, hslot⟩ := List.mem_filter.1 hslot
    have hholds : stretch.Holds slot.path := ⟨hfirst _ (by simpa using hslot), by simp_all⟩
    simpa using hholds
  · obtain ⟨y, hy, rfl⟩ := Option.map_eq_some_iff.1 hs
    obtain ⟨front, back, hslots, hfront, hback⟩ := (h.2 y hy).exists_slots
    have hay := hstop y hy
    refine ⟨(h.2 y hy).isSignificant, ?_, front.filter (Path.Precedes a ·.path), back, ?_, fun slot hslot => ?_,
      fun slot hslot => ?_⟩
    · simpa using fun hholds : stretch.Holds y => Path.Precedes.irrefl y (hholds.2 y hy)
    · rw [hslots, List.filter_append, List.filter_cons_of_pos (by simpa using hay),
        (List.filter_eq_self (l := back)).2 fun slot hslot => by simpa using hay.trans (hback slot hslot)]
    · obtain ⟨hmem, hlt⟩ := List.mem_filter.1 hslot
      have hholds : stretch.Holds slot.path :=
        ⟨hfirst _ (by simpa using hlt), fun z hz => Option.mem_unique hy hz ▸ hfront slot hmem⟩
      simpa using hholds
    · simpa using fun hholds : stretch.Holds slot.path => (hback slot hslot).asymm (hholds.2 y hy)

end Tree

/-! ## Trees that agree -/

namespace Tree

lemma filter_slots (tree : Tree) (stretch : Stretch) : (tree.slots.filter (stretch.Holds ·.path)) =
    (tree.parts.filter (stretch.Holds ·.path)).filterMap Part.slot? := by
  rw [slots_eq_parts, List.filter_filterMap, List.filterMap_filter]
  congr 1
  funext part
  cases h : part.slot? with
  | none => simp
  | some slot => simp [Option.filter_some, Part.path_of_slot? h]

/-- A significant token stands at corresponding places. -/
def SignifiedBoth (R : Path → Path → Prop) (tree later : Tree) (p p' : Path) : Prop :=
  R p p' ∧ ∃ token, tree.sub? p = some (.leaf token) ∧ later.sub? p' = some (.leaf token) ∧ token.isTrivia = false

lemma matches_bound {tree later : Tree} {x? x?' : Option Path} (hx : Option.Rel (SignifiedBoth R tree later) x? x?') :
    List.Forall₂ (Slot.Matches R) (x?.map tree.slotAt).toList (x?'.map later.slotAt).toList := by
  cases hx with
  | none => exact .nil
  | some hab =>
    obtain ⟨hR, token, hsub, hsub', -⟩ := hab
    exact .cons ⟨by simp [slotAt, hsub, hsub'], by simpa using hR⟩ .nil

/-- Two trees have the same parts in two stretches, between tokens that are the same. -/
structure Agree (R : Path → Path → Prop) (stretch stretch' : Stretch) (tree later : Tree) : Prop where
  keeps : Path.Keeps R
  parts : List.Forall₂ (Part.Matches R) (tree.parts.filter (stretch.Holds ·.path))
    (later.parts.filter (stretch'.Holds ·.path))
  start : Option.Rel (SignifiedBoth R tree later) stretch.start? stretch'.start?
  stop : Option.Rel (SignifiedBoth R tree later) stretch.stop? stretch'.stop?

namespace Agree

variable {tree later : Tree} {stretch stretch' : Stretch} (h : Agree R stretch stretch' tree later)

include h

lemma bounds_left : tree.Bounds stretch := by
  constructor
  · intro x hx
    obtain ⟨_, -, -, token, hsub, -, htoken⟩ := exists_of_rel_left h.start hx
    exact ⟨token, hsub, htoken⟩
  · intro y hy
    obtain ⟨_, -, -, token, hsub, -, htoken⟩ := exists_of_rel_left h.stop hy
    exact ⟨token, hsub, htoken⟩

lemma bounds_right : later.Bounds stretch' := by
  constructor
  · intro x hx
    obtain ⟨_, -, -, token, -, hsub, htoken⟩ := exists_of_rel_right h.start hx
    exact ⟨token, hsub, htoken⟩
  · intro y hy
    obtain ⟨_, -, -, token, -, hsub, htoken⟩ := exists_of_rel_right h.stop hy
    exact ⟨token, hsub, htoken⟩

lemma slots : List.Forall₂ (Slot.Matches R) (tree.slots.filter (stretch.Holds ·.path))
    (later.slots.filter (stretch'.Holds ·.path)) := by
  rw [filter_slots, filter_slots]
  refine List.rel_filterMap (fun a b hab => ?_) h.parts
  obtain ⟨p, t⟩ := a
  obtain ⟨q, u⟩ := b
  obtain ⟨htree, hpath⟩ := hab
  obtain rfl : t = u := htree
  match t with
  | .leaf token => exact .some ⟨rfl, by simpa [Slot.path] using hpath⟩
  | .node _ [] => exact .some ⟨rfl, by simpa [Slot.path] using hpath⟩
  | .node _ (_ :: _) => exact .none

variable {p p' a a' : Path} {part part' : Tree}

lemma sub?_eq (hp : stretch.Holds p) (hpp' : R p p') (hpart : tree.sub? p = some part) : later.sub? p' = some part := by
  obtain ⟨⟨q', t⟩, hmem, ht, hq'⟩ := exists_of_mem_left h.parts (a := ⟨p, part⟩)
    (List.mem_filter.2 ⟨mem_parts.2 hpart, by simpa using hp⟩)
  obtain rfl : part = t := ht
  rw [h.keeps.unique hpp' hq']
  exact mem_parts.1 (List.mem_of_mem_filter hmem)

/-- What lies in one stretch corresponds to what lies in the other one. -/
lemma holds_iff (hpp' : R p p') : stretch'.Holds p' ↔ stretch.Holds p := by
  constructor
  · rintro ⟨hstart, hstop⟩
    refine ⟨fun x hx => ?_, fun y hy => ?_⟩
    · obtain ⟨x', hx', hxx', -⟩ := exists_of_rel_left h.start hx
      exact (h.keeps.precedes hxx' hpp').1 (hstart x' hx')
    · obtain ⟨y', hy', hyy', -⟩ := exists_of_rel_left h.stop hy
      exact (h.keeps.precedes hpp' hyy').1 (hstop y' hy')
  · rintro ⟨hstart, hstop⟩
    refine ⟨fun x' hx' => ?_, fun y' hy' => ?_⟩
    · obtain ⟨x, hx, hxx', -⟩ := exists_of_rel_right h.start hx'
      exact (h.keeps.precedes hxx' hpp').2 (hstart x hx)
    · obtain ⟨y, hy, hyy', -⟩ := exists_of_rel_right h.stop hy'
      exact (h.keeps.precedes hpp' hyy').2 (hstop y hy)

variable (haa' : R a a') (ha : tree.sub? a = some part) (ha' : later.sub? a' = some part')

include haa' ha ha'

/-- Walking back from corresponding places in the stretches, one meets the same. -/
lemma walk_before (hstart : ∀ x ∈ stretch.start?, Path.Precedes x a)
    (hstop : ∀ y ∈ stretch.stop?, a = y ∨ Path.Precedes a y) :
    List.Forall₂ (Placed.Matches R) (Slot.walk (tree.around a).before) (Slot.walk (later.around a').before) := by
  have hstart' : ∀ x ∈ stretch'.start?, Path.Precedes x a' := by
    intro x' hx'
    obtain ⟨x, hx, hxx', -⟩ := exists_of_rel_right h.start hx'
    exact (h.keeps.precedes hxx' haa').2 (hstart x hx)
  have hstop' : ∀ y ∈ stretch'.stop?, a' = y ∨ Path.Precedes a' y := by
    intro y' hy'
    obtain ⟨y, hy, hyy', -⟩ := exists_of_rel_right h.stop hy'
    rcases hstop y hy with rfl | hay
    · exact Or.inl (h.keeps.unique haa' hyy')
    · exact Or.inr ((h.keeps.precedes haa' hyy').2 hay)
  rw [h.bounds_left.walk_before ha hstart hstop, h.bounds_right.walk_before ha' hstart' hstop']
  refine Slot.matches_walk (List.rel_append (List.rel_reverse (List.rel_filter (fun s t hst => ?_) h.slots))
    (matches_bound h.start))
  simpa using (h.keeps.precedes hst.2 haa').symm

/-- And so one does walking on. -/
lemma walk_after (hstart : ∀ x ∈ stretch.start?, a = x ∨ Path.Precedes x a)
    (hstop : ∀ y ∈ stretch.stop?, Path.Precedes a y) :
    List.Forall₂ (Placed.Matches R) (Slot.walk (tree.around a).after) (Slot.walk (later.around a').after) := by
  have hstart' : ∀ x ∈ stretch'.start?, a' = x ∨ Path.Precedes x a' := by
    intro x' hx'
    obtain ⟨x, hx, hxx', -⟩ := exists_of_rel_right h.start hx'
    rcases hstart x hx with rfl | hxa
    · exact Or.inl (h.keeps.unique haa' hxx')
    · exact Or.inr ((h.keeps.precedes hxx' haa').2 hxa)
  have hstop' : ∀ y ∈ stretch'.stop?, Path.Precedes a' y := by
    intro y' hy'
    obtain ⟨y, hy, hyy', -⟩ := exists_of_rel_right h.stop hy'
    exact (h.keeps.precedes haa' hyy').2 (hstop y hy)
  rw [h.bounds_left.walk_after ha hstart hstop, h.bounds_right.walk_after ha' hstart' hstop']
  refine Slot.matches_walk (List.rel_append (List.rel_filter (fun s t hst => ?_) h.slots) (matches_bound h.stop))
  simpa using (h.keeps.precedes haa' hst.2).symm

end Agree

/-! ## Taking out the same -/

end Tree

namespace Path

lemma inside_eq_filterMap (p : Path) (gone : List Path) :
    inside p gone = gone.filterMap fun r => if p <+: r then some (r.drop p.length) else none := by
  induction p generalizing gone with
  | nil => simp
  | cons i p ih =>
    rw [inside_cons, ih, below, List.filterMap_filterMap]
    congr 1
    funext r
    cases r with
    | nil => simp
    | cons j r =>
      by_cases hij : j = i
      · simp [hij, List.cons_prefix_cons]
      · simp [hij, Ne.symm hij, List.cons_prefix_cons]

/-- Corresponding places once corresponding places are taken out. -/
def Pruned (R : Path → Path → Prop) (gone gone' : List Path) (a b : Path) : Prop :=
  ∃ p p', R p p' ∧ afterPruning gone p = some a ∧ afterPruning gone' p' = some b

variable {gone gone' : List Path}

namespace Keeps

variable (hR : Keeps R)

include hR

lemma pruned (hnodup : gone.Nodup) (hnodup' : gone'.Nodup) : Keeps (Pruned R gone gone') where
  precedes := by
    rintro a a' b b' ⟨p, p', hpp', hp, hp'⟩ ⟨q, q', hqq', hq, hq'⟩
    rw [afterPruning_precedes_iff hnodup hp hq, afterPruning_precedes_iff hnodup' hp' hq', hR.precedes hpp' hqq']
  prefix_iff := by
    rintro a a' b b' ⟨p, p', hpp', hp, hp'⟩ ⟨q, q', hqq', hq, hq'⟩
    rw [afterPruning_prefix_iff hnodup hp hq, afterPruning_prefix_iff hnodup' hp' hq', hR.prefix_iff hpp' hqq']
  length := by
    rintro a a' ⟨p, p', hpp', hp, hp'⟩
    rw [length_afterPruning hp, length_afterPruning hp', hR.length hpp']

lemma inside_eq (hgone : List.Forall₂ R gone gone') {p p' : Path} (heven : ∀ s, R (p ++ s) (p' ++ s)) :
    inside p gone = inside p' gone' := by
  have hpp' : R p p' := by simpa using heven []
  rw [inside_eq_filterMap, inside_eq_filterMap, ← List.forall₂_eq_eq_eq]
  refine List.rel_filterMap (fun r r' hrr' => ?_) hgone
  by_cases hr : p <+: r
  · obtain ⟨s, rfl⟩ := hr
    obtain rfl := hR.unique (heven s) hrr'
    simp
  · have hr' : ¬ p' <+: r' := by rwa [hR.prefix_iff hpp' hrr']
    simp [hr, hr']

/-- Corresponding places go together. -/
lemma afterPruning_eq_none_iff (hgone : List.Forall₂ R gone gone') {p p' : Path} (hpp' : R p p') :
    afterPruning gone' p' = none ↔ afterPruning gone p = none := by
  rw [Path.afterPruning_eq_none_iff, Path.afterPruning_eq_none_iff]
  constructor
  · rintro ⟨r', hr', hne, hwithin⟩
    obtain ⟨r, hr, hrr'⟩ := exists_of_mem_left hgone.flip hr'
    exact ⟨r, hr, fun hnil => hne (List.length_eq_zero_iff.1 (by simp [hR.length hrr', hnil])),
      (hR.prefix_iff hrr' hpp').1 hwithin⟩
  · rintro ⟨r, hr, hne, hwithin⟩
    obtain ⟨r', hr', hrr'⟩ := exists_of_mem_left hgone hr
    exact ⟨r', hr', fun hnil => hne (List.length_eq_zero_iff.1 (by simp [← hR.length hrr', hnil])),
      (hR.prefix_iff hrr' hpp').2 hwithin⟩

end Keeps

end Path

/-- Below corresponding places in a stretch all places correspond. -/
def Stretch.Even (stretch : Stretch) (R : Path → Path → Prop) : Prop :=
  ∀ p p', stretch.Holds p → R p p' → ∀ s, R (p ++ s) (p' ++ s)

/-- A stretch once something in the tree is taken out. -/
def Stretch.prune (gone : List Path) (stretch : Stretch) : Stretch :=
  ⟨stretch.start?.bind (Path.afterPruning gone), stretch.stop?.bind (Path.afterPruning gone)⟩

/-- Both ends of a stretch are still there. -/
def Stretch.Stays (gone : List Path) (stretch : Stretch) : Prop :=
  (∀ x ∈ stretch.start?, ∃ x', Path.afterPruning gone x = some x') ∧
    ∀ y ∈ stretch.stop?, ∃ y', Path.afterPruning gone y = some y'

/-- What lies in a stretch still does. -/
lemma Stretch.Stays.holds_iff {gone : List Path} {stretch : Stretch} (h : stretch.Stays gone) (hnodup : gone.Nodup)
    {p p' : Path} (hp : Path.afterPruning gone p = some p') : (stretch.prune gone).Holds p' ↔ stretch.Holds p := by
  constructor
  · rintro ⟨hstart, hstop⟩
    refine ⟨fun x hx => ?_, fun y hy => ?_⟩
    · obtain ⟨x', hx'⟩ := h.1 x hx
      exact (Path.afterPruning_precedes_iff hnodup hx' hp).1 (hstart x' (Option.mem_bind_iff.2 ⟨x, hx, hx'⟩))
    · obtain ⟨y', hy'⟩ := h.2 y hy
      exact (Path.afterPruning_precedes_iff hnodup hp hy').1 (hstop y' (Option.mem_bind_iff.2 ⟨y, hy, hy'⟩))
  · rintro ⟨hstart, hstop⟩
    refine ⟨fun x' hx' => ?_, fun y' hy' => ?_⟩
    · obtain ⟨x, hx, hxx'⟩ := Option.mem_bind_iff.1 hx'
      exact (Path.afterPruning_precedes_iff hnodup hxx' hp).2 (hstart x hx)
    · obtain ⟨y, hy, hyy'⟩ := Option.mem_bind_iff.1 hy'
      exact (Path.afterPruning_precedes_iff hnodup hp hyy').2 (hstop y hy)

namespace Tree

variable {tree later : Tree} {stretch stretch' : Stretch} {gone gone' : List Path}

lemma filter_parts_prune (hnodup : gone.Nodup) (h : stretch.Stays gone) (tree : Tree) :
    (tree.prune gone).parts.filter ((stretch.prune gone).Holds ·.path) =
      (tree.parts.filter (stretch.Holds ·.path)).filterMap (Part.pruned? gone) := by
  rw [parts_prune hnodup, List.filter_filterMap, List.filterMap_filter]
  congr 1
  funext part
  cases hp : Path.afterPruning gone part.path with
  | none => simp [Part.pruned?, hp]
  | some p' => simp [Part.pruned?, hp, Option.filter_some, h.holds_iff hnodup hp]

lemma rel_prune {x? x?' : Option Path} (hR : Path.Keeps R) (hx : Option.Rel (SignifiedBoth R tree later) x? x?')
    (hnodup : gone.Nodup) (hnodup' : gone'.Nodup) (hgone : List.Forall₂ R gone gone')
    (hstays : ∀ x ∈ x?, ∃ x', Path.afterPruning gone x = some x') :
    Option.Rel (SignifiedBoth (Path.Pruned R gone gone') (tree.prune gone) (later.prune gone'))
      (x?.bind (Path.afterPruning gone)) (x?'.bind (Path.afterPruning gone')) := by
  cases hx with
  | none => exact .none
  | @some x x' hxx' =>
    obtain ⟨hxx', token, hsub, hsub', htoken⟩ := hxx'
    obtain ⟨y, hy⟩ := hstays x rfl
    obtain ⟨y', hy'⟩ : ∃ y', Path.afterPruning gone' x' = some y' := by
      rw [← Option.ne_none_iff_exists']
      rw [Ne, hR.afterPruning_eq_none_iff hgone hxx', hy]
      simp
    simp only [Option.bind_some, hy, hy']
    exact .some ⟨⟨x, x', hxx', hy, hy'⟩, token, Trimming.sub?_prune hnodup hy hsub,
      Trimming.sub?_prune hnodup' hy' hsub', htoken⟩

/-- Trees that agree still do once the same is taken out of both. -/
lemma Agree.prune (h : Agree R stretch stretch' tree later) (hnodup : gone.Nodup)
    (hnodup' : gone'.Nodup) (hgone : List.Forall₂ R gone gone')
    (heven : stretch.Even R) (hstays : stretch.Stays gone) :
    Agree (Path.Pruned R gone gone') (stretch.prune gone) (stretch'.prune gone') (tree.prune gone)
      (later.prune gone') where
  keeps := h.keeps.pruned hnodup hnodup'
  start := rel_prune h.keeps h.start hnodup hnodup' hgone hstays.1
  stop := rel_prune h.keeps h.stop hnodup hnodup' hgone hstays.2
  parts := by
    have hexists : ∀ x x', R x x' → (∃ y, Path.afterPruning gone x = some y) → ∃ y, Path.afterPruning gone' x' = some y := by
      intro x x' hxx' hy
      rw [← Option.ne_none_iff_exists'] at hy ⊢
      rwa [Ne, h.keeps.afterPruning_eq_none_iff hgone hxx']
    have hstays' : stretch'.Stays gone' := by
      constructor
      · intro x' hx'
        obtain ⟨x, hx, hxx', -⟩ := exists_of_rel_right h.start hx'
        exact hexists x x' hxx' (hstays.1 x hx)
      · intro y' hy'
        obtain ⟨y, hy, hyy', -⟩ := exists_of_rel_right h.stop hy'
        exact hexists y y' hyy' (hstays.2 y hy)
    rw [filter_parts_prune hnodup hstays, filter_parts_prune hnodup' hstays']
    have hheld : ∀ a ∈ tree.parts.filter (stretch.Holds ·.path), stretch.Holds a.path := fun a ha => by
      simpa using List.of_mem_filter ha
    refine List.rel_filterMap (fun a b hab => ?_) ((List.forall₂_and_left _ _).2 ⟨hheld, h.parts⟩)
    obtain ⟨hholds, htree, hpath⟩ := hab
    rw [Part.pruned?, Part.pruned?, ← htree, h.keeps.inside_eq hgone (heven _ _ hholds hpath)]
    cases ha : Path.afterPruning gone a.path with
    | none =>
      rw [(h.keeps.afterPruning_eq_none_iff hgone hpath).2 ha]
      exact .none
    | some p =>
      obtain ⟨p', hp'⟩ := hexists _ _ hpath ⟨p, ha⟩
      rw [hp']
      exact .some ⟨rfl, a.path, b.path, hpath, ha, hp'⟩

end Tree

/-! ## Removals -/

namespace Edit

open SwiftTidy.Tree

variable {tree later part : Tree} {stretch stretch' : Stretch} {p p' : Path}

lemma Signified.mem_placedTokens {x : Path} (hx : tree.Signified x) :
    ∃ placed ∈ tree.placedTokens, placed.isTrivia = false ∧ placed.path = x := by
  obtain ⟨token, hsub, htoken⟩ := hx
  exact ⟨_, mem_placedTokens_of_sub? hsub, htoken, by simp⟩

section

variable (h : Agree R stretch stretch' tree later) (hin : stretch.Holds p) (hpp' : R p p')
  (hp : tree.sub? p = some part)

include h hin hpp' hp

/-- In a stretch in which two trees agree, the same can be seen. -/
lemma seenAlike : SeenAlike R tree later p p' := by
  have hp' := h.sub?_eq hin hpp' hp
  have hafter := h.walk_after hpp' hp hp' (fun x hx => Or.inr (hin.1 x hx)) hin.2
  refine ⟨hpp', isWhole_eq hp hp', h.walk_before hpp' hp hp' hin.1 fun y hy => Or.inr (hin.2 y hy),
    Around.matches_trailing hafter, endsLine_eq_of_walk hafter fun next next' hmatch hnext hnext' => ?_⟩
  obtain ⟨hmem, hpnext⟩ := mem_walk_after hp hnext
  refine h.walk_before hmatch.2 (sub?_of_mem_placedTokens hmem) (sub?_of_mem_placedTokens (mem_walk_after hp' hnext').1)
    (fun x hx => (hin.1 x hx).trans hpnext) fun y hy => ?_
  obtain ⟨placed, hplaced, hsignificant, rfl⟩ := Signified.mem_placedTokens (h.bounds_left.2 y hy)
  rcases precedes_of_mem_walk_after hp hplaced hsignificant (hin.2 _ hy) hnext with rfl | hlt
  · exact Or.inl rfl
  · exact Or.inr hlt

omit hpp' in
/-- What is taken out first lies in the stretch. -/
lemma stays_taken : stretch.Stays (taken tree p) := by
  constructor
  · intro x hx
    obtain ⟨placed, hplaced, hsignificant, rfl⟩ := Signified.mem_placedTokens (h.bounds_left.1 x hx)
    exact ⟨_, Path.afterPruning_eq_self fun r hr => precedes_of_mem_taken hp hplaced hsignificant (hin.1 _ hx) hr⟩
  · intro y hy
    obtain ⟨placed, hplaced, hsignificant, rfl⟩ := Signified.mem_placedTokens (h.bounds_left.2 y hy)
    exact exists_afterPruning fun r hr => mem_taken_precedes hp hplaced hsignificant (hin.2 _ hy) hr

variable (heven : stretch.Even R)

include heven

/-- Once they are gone, the same dangles. -/
lemma forall₂_dangling :
    List.Forall₂ (Path.Pruned R (taken tree p) (taken later p')) (dangling tree p) (dangling later p') := by
  have hp' := h.sub?_eq hin hpp' hp
  have hseen := seenAlike h hin hpp' hp
  refine hseen.forall₂_dangling fun previous previous' hmatch hprevious hprevious' hopens => ?_
  have hwalk := Around.mem_walk_of_significantBefore? hprevious
  obtain ⟨hmem, hprec⟩ := mem_walk_before hp hwalk
  obtain ⟨hmem', hprec'⟩ := mem_walk_before hp' (Around.mem_walk_of_significantBefore? hprevious')
  -- the token before is still there, and the trees without the places agree as well
  have hmoved := afterPruning_taken hp hopens hprec
  have hmoved' := afterPruning_taken hp' ((Around.opensContinuation_eq hseen.before).trans hopens) hprec'
  have hpruned := h.prune (nodup_taken hp) (nodup_taken hp') hseen.forall₂_taken heven (stays_taken h hin hp)
  refine Around.matches_trailing (hpruned.walk_after ⟨_, _, hmatch.2, hmoved, hmoved'⟩
    (Trimming.sub?_prune (nodup_taken hp) hmoved (sub?_of_mem_placedTokens hmem))
    (Trimming.sub?_prune (nodup_taken hp') hmoved' (sub?_of_mem_placedTokens hmem')) (fun x' hx' => ?_) fun y' hy' => ?_)
  · obtain ⟨x, hx, hxx'⟩ := Option.mem_bind_iff.1 hx'
    obtain ⟨placed, hplaced, hsignificant, rfl⟩ := Signified.mem_placedTokens (h.bounds_left.1 x hx)
    rcases precedes_of_mem_walk hp hplaced hsignificant (hin.1 _ hx) hwalk with rfl | hlt
    · exact Or.inl (Option.some.inj (hmoved.symm.trans hxx'))
    · exact Or.inr ((Path.afterPruning_mono (nodup_taken hp) hxx' hmoved).1 hlt)
  · obtain ⟨y, hy, hyy'⟩ := Option.mem_bind_iff.1 hy'
    exact (Path.afterPruning_mono (nodup_taken hp) hmoved hyy').1 (hprec.trans (hin.2 y hy))

/-- Hence a removal takes out corresponding places. -/
theorem moved_remove_eq_none_iff {q q' : Path} (hqq' : R q q') :
    (remove later p').moved q' = none ↔ (remove tree p).moved q = none := by
  have hp' := h.sub?_eq hin hpp' hp
  have htaken := (seenAlike h hin hpp' hp).forall₂_taken
  have hpruned := h.keeps.pruned (nodup_taken hp) (nodup_taken hp')
  rw [remove_eq, remove_eq]
  simp only [andThen, take]
  cases hq : Path.afterPruning (taken tree p) q with
  | none => simp [(h.keeps.afterPruning_eq_none_iff htaken hqq').2 hq]
  | some r =>
    cases hq' : Path.afterPruning (taken later p') q' with
    | none => simp [(h.keeps.afterPruning_eq_none_iff htaken hqq').1 hq'] at hq
    | some r' =>
      exact hpruned.afterPruning_eq_none_iff (forall₂_dangling h hin hpp' hp heven) ⟨q, q', hqq', hq, hq'⟩

end

/-! ## Exchanges -/

variable {q : Path} {x : Placed}

/-- Behind a significant token that follows a part, a tree stays as it is where the part is exchanged. -/
lemma agree_replaceAt (new : Tree) (hx : x ∈ tree.placedTokens) (hsignificant : x.isTrivia = false)
    (hqx : Path.Precedes q x.path) : Agree Eq ⟨some x.path, none⟩ ⟨some x.path, none⟩ tree (tree.replaceAt q new) := by
  have hsame : ∀ r, Path.Precedes q r → (tree.replaceAt q new).sub? r = tree.sub? r := fun r hr =>
    sub?_replaceAt_of_apart tree new hr.apart.1 hr.apart.2
  have hleaf := sub?_of_mem_placedTokens hx
  have hirrefl : Std.Irrefl fun a b : Part => Path.Before a.path b.path := ⟨fun a => Path.Before.irrefl a.path⟩
  have hantisymm : Std.Antisymm fun a b : Part => Path.Before a.path b.path := ⟨fun a b hab hba => absurd hba hab.asymm⟩
  refine ⟨⟨by rintro _ _ _ _ rfl rfl; rfl, by rintro _ _ _ _ rfl rfl; rfl, by rintro _ _ rfl; rfl⟩, ?_, .some ⟨rfl, _,
    hleaf, (hsame _ hqx).trans hleaf, hsignificant⟩, .none⟩
  have hparts : tree.parts.filter (Stretch.Holds ⟨some x.path, none⟩ ·.path) =
      (tree.replaceAt q new).parts.filter (Stretch.Holds ⟨some x.path, none⟩ ·.path) := by
    refine (tree.pairwise_parts.filter _).eq_of_mem_iff ((pairwise_parts _).filter _) fun part => ?_
    simp only [List.mem_filter, mem_parts, decide_eq_true_eq, Stretch.Holds, Option.mem_def, Option.some.injEq,
      forall_eq', and_congr_left_iff]
    exact fun hpart => by rw [hsame _ (hqx.trans hpart.1)]
  rw [hparts]
  exact List.forall₂_same.2 fun _ _ => ⟨rfl, rfl⟩

/-- A removal does not notice an exchange before it, if a significant token follows what is exchanged. -/
theorem remove_replaceAt_right {old : Tree} (hold : tree.sub? q = some old) (new : Tree) (hx : x ∈ tree.placedTokens)
    (hsignificant : x.isTrivia = false) (hqx : Path.Precedes q x.path) (hp : tree.sub? p = some part)
    (hxp : Path.Precedes x.path p) :
    remove (tree.replaceAt q new) p = ⟨(remove tree p).tree.replaceAt q new, (remove tree p).moved⟩ := by
  have hagree := agree_replaceAt new hx hsignificant hqx
  have hin : Stretch.Holds ⟨some x.path, none⟩ p := ⟨by simpa using hxp, by simp⟩
  have htaken := (seenAlike hagree hin rfl hp).taken_eq
  have hdangling : dangling (tree.replaceAt q new) p = dangling tree p := by
    rw [eq_comm, ← List.forall₂_eq_eq_eq]
    refine (forall₂_dangling hagree hin rfl hp (by rintro _ _ _ rfl _; rfl)).imp ?_
    rintro a b ⟨r, _, rfl, ha, hb⟩
    exact Option.some.inj (ha.symm.trans (htaken ▸ hb))
  have hahead : ∀ r ∈ taken tree p, Path.Precedes q r := fun r hr =>
    hqx.trans (precedes_of_mem_taken hp hx hsignificant hxp hr)
  have hahead' : ∀ r ∈ dangling tree p, Path.Precedes q r := fun r hr =>
    hqx.trans (precedes_of_mem_dangling hp hx hsignificant hxp hr)
  exact (remove_replaceAt_of_eq hp hold htaken (fun r hr => (hahead r hr).apart.1) (Path.afterPruning_eq_self hahead)
    hdangling (fun r hr => (hahead' r hr).apart.1) (Path.afterPruning_eq_self hahead')).2.2

end Edit

end SwiftTidy

import SwiftTidy.Proofs.Partings
import SwiftTidy.Proofs.Views

/-!
# Removals in any order

Parts of a tree are parted if there are significant tokens between any two of them. The removal of one of them then
leaves the stretch around each other one as it is (`Tree.undisturbed_remove`), so it does not matter which of them goes
first: in whatever order they are removed, what is gone in the end is what goes with each of them in the whole tree
(`Edit.Stripped.step`).

The return clauses of the signatures in a text are parted.
-/

namespace SwiftTidy

namespace Path

lemma keeps_afterPruning {gone : List Path} (h : gone.Nodup) : Keeps (Moves (afterPruning gone)) :=
  ⟨afterPruning_precedes_iff h, afterPruning_prefix_iff h, length_afterPruning⟩

/-- A part from which nothing is taken out moves as a whole. -/
lemma afterPruning_append {gone : List Path} {p p' : Path} (hp : afterPruning gone p = some p')
    (hout : ∀ r ∈ gone, ¬ p <+: r) (s : Path) : afterPruning gone (p ++ s) = some (p' ++ s) := by
  induction p generalizing gone p' with
  | nil =>
    obtain rfl : gone = [] := List.eq_nil_iff_forall_not_mem.2 fun r hr => hout r hr List.nil_prefix
    obtain rfl : [] = p' := by simpa using hp
    simp
  | cons i p ih =>
    rw [afterPruning_cons] at hp
    split at hp
    · simp at hp
    next hstays =>
      obtain ⟨rest, hrest, rfl⟩ := Option.map_eq_some_iff.1 hp
      rw [List.cons_append, afterPruning_cons, if_neg hstays, ih hrest fun r hr hwithin =>
        hout (i :: r) (mem_below.1 hr) (List.cons_prefix_cons.2 ⟨rfl, hwithin⟩)]
      rfl

end Path

/-- A place lies outside of a stretch, beyond one of the tokens that bound it. -/
def Stretch.Outside (stretch : Stretch) (p : Path) : Prop :=
  (∃ x ∈ stretch.start?, Path.Precedes p x) ∨ ∃ y ∈ stretch.stop?, Path.Precedes y p

variable {q : Path} {stretch : Stretch}

lemma Stretch.Outside.apart {p : Path} (h : stretch.Outside p) (hq : stretch.Holds q) : ¬ p <+: q ∧ ¬ q <+: p := by
  rcases h with ⟨x, hx, hpx⟩ | ⟨y, hy, hyp⟩
  · exact (hpx.trans (hq.1 x hx)).apart
  · exact ((hq.2 y hy).trans hyp).apart.symm

lemma Stretch.Holds.exists_afterPruning (hq : stretch.Holds q) {gone : List Path} (hout : ∀ r ∈ gone, stretch.Outside r) :
    ∃ q', Path.afterPruning gone q = some q' := by
  rw [← Option.ne_none_iff_exists', Ne, Path.afterPruning_eq_none_iff]
  rintro ⟨r, hr, -, hwithin⟩
  exact ((hout r hr).apart hq).1 hwithin

namespace Tree

/-! ## Stretches that stay as they are -/

/-- The parts of a stretch are still there as they were. -/
structure Undisturbed (moved : Path → Option Path) (stretch stretch' : Stretch) (tree later : Tree) : Prop where
  agree : Agree (Path.Moves moved) stretch stretch' tree later
  even : stretch.Even (Path.Moves moved)

variable {tree later last : Tree} {stretch stretch' stretch'' : Stretch} {moved next : Path → Option Path}

lemma Undisturbed.refl (h : tree.Bounds stretch) : Undisturbed some stretch stretch tree tree where
  agree :=
    { keeps := ⟨fun hp hq => by simp_all [Path.Moves], fun hp hq => by simp_all [Path.Moves],
        fun hp => by simp_all [Path.Moves]⟩
      parts := List.forall₂_same.2 fun _ _ => ⟨rfl, rfl⟩
      start := by
        cases hx : stretch.start? with
        | none => exact .none
        | some x =>
          obtain ⟨token, hsub, htoken⟩ := h.1 x hx
          exact .some ⟨rfl, token, hsub, hsub, htoken⟩
      stop := by
        cases hy : stretch.stop? with
        | none => exact .none
        | some y =>
          obtain ⟨token, hsub, htoken⟩ := h.2 y hy
          exact .some ⟨rfl, token, hsub, hsub, htoken⟩ }
  even p p' _ hpp' s := by
    obtain rfl : p = p' := Option.some.inj hpp'
    rfl

lemma rel_trans {x? x?' x?'' : Option Path} (h : Option.Rel (SignifiedBoth (Path.Moves moved) tree later) x? x?')
    (h' : Option.Rel (SignifiedBoth (Path.Moves next) later last) x?' x?'') :
    Option.Rel (SignifiedBoth (Path.Moves fun p => (moved p).bind next) tree last) x? x?'' := by
  cases h with
  | none =>
    cases h'
    exact .none
  | some hx =>
    cases h' with
    | some hx' =>
      obtain ⟨hmoved, token, hsub, hsub', htoken⟩ := hx
      obtain ⟨hnext, token', hsub₁, hsub₂, -⟩ := hx'
      obtain rfl : token = token' := by simpa using hsub'.symm.trans hsub₁
      exact .some ⟨Option.bind_eq_some_iff.2 ⟨_, hmoved, hnext⟩, token, hsub, hsub₂, htoken⟩

lemma matches_trans {xs ys zs : List Part} (h : List.Forall₂ (Part.Matches (Path.Moves moved)) xs ys)
    (h' : List.Forall₂ (Part.Matches (Path.Moves next)) ys zs) :
    List.Forall₂ (Part.Matches (Path.Moves fun p => (moved p).bind next)) xs zs := by
  induction h generalizing zs with
  | nil =>
    cases h'
    exact .nil
  | cons hxy _ ih =>
    cases h' with
    | cons hyz hrest =>
      exact .cons ⟨hxy.1.trans hyz.1, Option.bind_eq_some_iff.2 ⟨_, hxy.2, hyz.2⟩⟩ (ih hrest)

lemma Undisturbed.trans (h : Undisturbed moved stretch stretch' tree later)
    (h' : Undisturbed next stretch' stretch'' later last) :
    Undisturbed (fun p => (moved p).bind next) stretch stretch'' tree last where
  agree :=
    { keeps := h.agree.keeps.bind h'.agree.keeps
      parts := matches_trans h.agree.parts h'.agree.parts
      start := rel_trans h.agree.start h'.agree.start
      stop := rel_trans h.agree.stop h'.agree.stop }
  even p p' hp hpp' s := by
    obtain ⟨p₁, hp₁, hpp'⟩ := Option.bind_eq_some_iff.1 hpp'
    exact Option.bind_eq_some_iff.2 ⟨p₁ ++ s, h.even p p₁ hp hp₁ s,
      h'.even p₁ p' ((h.agree.holds_iff hp₁).2 hp) hpp' s⟩

/-- What is taken out outside of a stretch leaves it as it is. -/
lemma undisturbed_prune {gone : List Path} (hnodup : gone.Nodup) (hbounds : tree.Bounds stretch) {q : Path}
    (hq : stretch.Holds q) (hout : ∀ r ∈ gone, stretch.Outside r) :
    Undisturbed (Path.afterPruning gone) stretch (stretch.prune gone) tree (tree.prune gone) := by
  have hstays : stretch.Stays gone := by
    simp only [Stretch.Stays, ← Option.ne_none_iff_exists', Ne, Path.afterPruning_eq_none_iff]
    constructor
    · rintro x hx ⟨r, hr, -, hwithin⟩
      rcases hout r hr with ⟨x', hx', hrx⟩ | ⟨y, hy, hyr⟩
      · exact (Option.mem_unique hx hx' ▸ hrx).apart.1 hwithin
      · exact (((hq.1 _ hx).trans (hq.2 y hy)).trans hyr).apart.2 hwithin
    · rintro y hy ⟨r, hr, -, hwithin⟩
      rcases hout r hr with ⟨x, hx, hrx⟩ | ⟨y', hy', hyr⟩
      · exact (hrx.trans ((hq.1 x hx).trans (hq.2 _ hy))).apart.1 hwithin
      · exact (Option.mem_unique hy hy' ▸ hyr).apart.2 hwithin
  have hrel : ∀ x? : Option Path, (∀ x ∈ x?, tree.Signified x ∧ ∃ x', Path.afterPruning gone x = some x') →
      Option.Rel (SignifiedBoth (Path.Moves (Path.afterPruning gone)) tree (tree.prune gone)) x?
        (x?.bind (Path.afterPruning gone)) := by
    intro x? hx?
    cases x? with
    | none => exact .none
    | some x =>
      obtain ⟨⟨token, hsub, htoken⟩, x', hx'⟩ := hx? x rfl
      rw [Option.bind_some, hx']
      exact .some ⟨hx', token, hsub, Trimming.sub?_prune hnodup hx' hsub, htoken⟩
  refine ⟨⟨Path.keeps_afterPruning hnodup, ?_, ?_, ?_⟩, ?_⟩
  · rw [filter_parts_prune hnodup hstays]
    have hheld : ∀ part ∈ tree.parts.filter (stretch.Holds ·.path), stretch.Holds part.path := fun part hpart => by
      simpa using List.of_mem_filter hpart
    generalize tree.parts.filter (stretch.Holds ·.path) = row at hheld
    induction row with
    | nil => exact .nil
    | cons part row ih =>
      have hpart := hheld part List.mem_cons_self
      obtain ⟨p', hp'⟩ := hpart.exists_afterPruning hout
      have hnone : Path.inside part.path gone = [] := List.eq_nil_iff_forall_not_mem.2 fun r hr =>
        ((hout _ (Path.mem_inside.1 hr)).apart hpart).2 (List.prefix_append _ _)
      have hpruned : part.pruned? gone = some ⟨p', part.tree⟩ := by simp [Part.pruned?, hp', hnone]
      rw [List.filterMap_cons_some hpruned]
      exact .cons ⟨rfl, hp'⟩ (ih fun other hother => hheld other (List.mem_cons_of_mem _ hother))
  · exact hrel _ fun x hx => ⟨hbounds.1 x hx, hstays.1 x hx⟩
  · exact hrel _ fun y hy => ⟨hbounds.2 y hy, hstays.2 y hy⟩
  · intro p p' hp hpp' s
    exact Path.afterPruning_append hpp' (fun r hr => ((hout r hr).apart hp).2) s

open Edit in
/-- The removal of a part outside of a stretch leaves it as it is. -/
lemma undisturbed_remove {p q : Path} {part : Tree} (hp : tree.sub? p = some part) (hbounds : tree.Bounds stretch)
    (hq : stretch.Holds q) (hout : stretch.Outside p) :
    ∃ stretch', Undisturbed (remove tree p).moved stretch stretch' tree (remove tree p).tree := by
  have htaken : ∀ r ∈ taken tree p, stretch.Outside r := by
    intro r hr
    rcases hout with ⟨x, hx, hpx⟩ | ⟨y, hy, hyp⟩
    · obtain ⟨placed, hplaced, hsignificant, rfl⟩ := Signified.mem_placedTokens (hbounds.1 x hx)
      exact Or.inl ⟨_, hx, mem_taken_precedes hp hplaced hsignificant hpx hr⟩
    · obtain ⟨placed, hplaced, hsignificant, rfl⟩ := Signified.mem_placedTokens (hbounds.2 y hy)
      exact Or.inr ⟨_, hy, precedes_of_mem_taken hp hplaced hsignificant hyp hr⟩
  have hfirst := undisturbed_prune (nodup_taken hp) hbounds hq htaken
  obtain ⟨q', hq'⟩ := hq.exists_afterPruning htaken
  have hdangling : ∀ r ∈ dangling tree p, (stretch.prune (taken tree p)).Outside r := by
    intro r hr
    rcases hout with ⟨x, hx, hpx⟩ | ⟨y, hy, hyp⟩
    · obtain ⟨x', hx', hxx', -⟩ := exists_of_rel_left hfirst.agree.start hx
      obtain ⟨placed, hplaced, hsignificant, rfl⟩ := Signified.mem_placedTokens (hbounds.1 x hx)
      exact Or.inl ⟨x', hx', mem_dangling_precedes hp hplaced hsignificant hpx hxx' hr⟩
    · obtain ⟨placed, hplaced, hsignificant, rfl⟩ := Signified.mem_placedTokens (hbounds.2 y hy)
      have hself : Path.afterPruning (taken tree p) placed.path = some placed.path :=
        Path.afterPruning_eq_self fun r hr => precedes_of_mem_taken hp hplaced hsignificant hyp hr
      exact Or.inr ⟨placed.path, Option.mem_bind_iff.2 ⟨_, hy, hself⟩,
        precedes_of_mem_dangling hp hplaced hsignificant hyp hr⟩
  have hsecond := undisturbed_prune (nodup_dangling hp) hfirst.agree.bounds_right ((hfirst.agree.holds_iff hq').2 hq)
    hdangling
  rw [remove_eq]
  exact ⟨_, hfirst.trans hsecond⟩

/-- Parts of a tree that are parted from each other by significant tokens. -/
def Parted (tree : Tree) (paths : List Path) : Prop :=
  ∀ p ∈ paths, p ≠ [] ∧ (∃ part, tree.sub? p = some part) ∧ ∃ stretch : Stretch, tree.Bounds stretch ∧ stretch.Holds p ∧
    ∀ q ∈ paths, q ≠ p → stretch.Outside q

end Tree

/-! ## One after the other -/

namespace Edit

open SwiftTidy.Tree

/-- Removes the parts at the given paths of the tree before an edit, one after the other, as long as it is possible. -/
def removeInTurn : Edit → List Path → Option Edit
  | edit, [] => some edit
  | edit, path :: rest =>
    (edit.moved path).bind fun p => (Error.skip ((Change.remove p).apply edit.tree)).bind fun next =>
      removeInTurn ⟨next.tree, fun q => (edit.moved q).bind next.moved⟩ rest

/-- Some of the parts that are parted have been removed. What is gone is what goes with each of them in the whole tree, and
the stretches around the others are as they were. -/
structure Stripped (tree : Tree) (paths done : List Path) (edit : Edit) : Prop where
  relocation : tree.Relocation edit.tree edit.moved
  gone : ∀ q, edit.moved q = none ↔ ∃ p ∈ done, (remove tree p).moved q = none
  left : ∀ p ∈ paths, p ∉ done → ∃ stretch stretch', stretch.Holds p ∧ (∀ q ∈ paths, q ≠ p → stretch.Outside q) ∧
    Undisturbed edit.moved stretch stretch' tree edit.tree

namespace Stripped

variable {tree : Tree} {paths done : List Path} {edit : Edit}

lemma init (h : tree.Parted paths) : Stripped tree paths [] (keep tree) where
  relocation := Relocation.refl tree
  gone q := by simp [keep]
  left p hp _ := by
    obtain ⟨-, -, stretch, hbounds, hholds, hout⟩ := h p hp
    exact ⟨stretch, stretch, hholds, hout, Undisturbed.refl hbounds⟩

variable (h : Stripped tree paths done edit)

include h

/-- One more part is removed. -/
lemma step (hparted : tree.Parted paths) {path : Path} (hpath : path ∈ paths) (hdone : path ∉ done) :
    ∃ p, edit.moved path = some p ∧ (Change.remove p).apply edit.tree = .ok (remove edit.tree p) ∧
      Stripped tree paths (path :: done)
        ⟨(remove edit.tree p).tree, fun q => (edit.moved q).bind (remove edit.tree p).moved⟩ := by
  obtain ⟨hne, ⟨part, hpart⟩, -⟩ := hparted path hpath
  obtain ⟨stretch, stretch', hholds, -, hsame⟩ := h.left path hpath hdone
  obtain ⟨⟨p, later⟩, hmem, hlater, hp⟩ := exists_of_mem_left hsame.agree.parts (a := ⟨path, part⟩)
    (List.mem_filter.2 ⟨mem_parts.2 hpart, by simpa using hholds⟩)
  have hp : edit.moved path = some p := hp
  have hpne : p ≠ [] := fun hnil => hne (List.length_eq_zero_iff.1 (by simp [← h.relocation.length hp, hnil]))
  have hpart' := hsame.agree.sub?_eq hholds hp hpart
  refine ⟨p, hp, ?_, (h.relocation.trans (clears_remove hpne hpart').relocation), fun q => ?_, fun q hq hleft => ?_⟩
  · cases p with
    | nil => exact absurd rfl hpne
    | cons i p => rfl
  · rw [Option.bind_eq_none_iff]
    cases hq : edit.moved q with
    | none =>
      obtain ⟨d, hd, hgone⟩ := (h.gone q).1 hq
      simpa using Or.inr ⟨d, hd, hgone⟩
    | some q' =>
      have hstays : ∀ d ∈ done, (remove tree d).moved q ≠ none := fun d hd hgone => by
        simp [(h.gone q).2 ⟨d, hd, hgone⟩] at hq
      have hiff := moved_remove_eq_none_iff hsame.agree hholds hp hpart hsame.even hq
      simp only [Option.some.injEq, forall_eq', hiff, List.mem_cons, exists_eq_or_imp]
      exact ⟨Or.inl, fun hor => hor.resolve_right fun ⟨d, hd, hgone⟩ => hstays d hd hgone⟩
  · obtain ⟨hqp, hqdone⟩ : q ≠ path ∧ q ∉ done := by simpa [not_or] using hleft
    obtain ⟨around, around', hheld, hout, hsame'⟩ := h.left q hq hqdone
    obtain ⟨-, ⟨other, hother⟩, -⟩ := hparted q hq
    obtain ⟨⟨q', _⟩, -, -, hq'⟩ := exists_of_mem_left hsame'.agree.parts (a := ⟨q, other⟩)
      (List.mem_filter.2 ⟨mem_parts.2 hother, by simpa using hheld⟩)
    -- the part lies beyond the same token in the tree that is left
    have hout' : around'.Outside p := by
      rcases hout path hpath hqp.symm with ⟨x, hx, hlt⟩ | ⟨y, hy, hlt⟩
      · obtain ⟨x', hx', hxx', -⟩ := exists_of_rel_left hsame'.agree.start hx
        exact Or.inl ⟨x', hx', (h.relocation.precedes hp hxx').2 hlt⟩
      · obtain ⟨y', hy', hyy', -⟩ := exists_of_rel_left hsame'.agree.stop hy
        exact Or.inr ⟨y', hy', (h.relocation.precedes hyy' hp).2 hlt⟩
    obtain ⟨around'', hnext⟩ := undisturbed_remove hpart' hsame'.agree.bounds_right
      ((hsame'.agree.holds_iff hq').2 hheld) hout'
    exact ⟨around, around'', hheld, hout, hsame'.trans hnext⟩

/-- Parts that are parted can be removed in any order. -/
lemma run (hparted : tree.Parted paths) {order : List Path} (horder : ∀ p ∈ order, p ∈ paths ∧ p ∉ done)
    (hnodup : order.Nodup) :
    ∃ last, edit.removeInTurn order = some last ∧ Stripped tree paths (order.reverse ++ done) last := by
  induction order generalizing edit done with
  | nil => exact ⟨edit, rfl, h⟩
  | cons path rest ih =>
    obtain ⟨hpath, hrest⟩ := List.nodup_cons.1 hnodup
    obtain ⟨hmem, hdone⟩ := horder path List.mem_cons_self
    obtain ⟨p, hp, happly, hnext⟩ := h.step hparted hmem hdone
    obtain ⟨last, hlast, hstripped⟩ := ih hnext (fun q hq => ⟨(horder q (List.mem_cons_of_mem _ hq)).1, by
      have hne : q ≠ path := fun heq => hpath (heq ▸ hq)
      simpa [hne] using (horder q (List.mem_cons_of_mem _ hq)).2⟩) hrest
    refine ⟨last, ?_, by simpa using hstripped⟩
    rw [removeInTurn, hp, Option.bind_some, happly]
    exact hlast

lemma leaves_eq : edit.tree.leaves = (tree.placedTokens.filter fun placed =>
    ∀ p ∈ done, (remove tree p).moved placed.path ≠ none).map Placed.token := by
  rw [h.relocation.leaves_eq]
  congr 1
  refine List.filter_congr fun placed _ => ?_
  rw [Bool.eq_iff_iff, Option.isSome_iff_ne_none, decide_eq_true_eq, Ne, h.gone]
  simp

end Stripped

end Edit

namespace Tree

/-! ## Clauses -/

/-- Every place lies in a stretch between the significant tokens next to it. -/
lemma exists_stretch (tree : Tree) (p : Path) : ∃ stretch : Stretch, tree.Bounds stretch ∧ stretch.Holds p ∧
    ∀ x ∈ tree.placedTokens, x.isTrivia = false →
      (Path.Precedes x.path p → ∃ z ∈ stretch.start?, x.path = z ∨ Path.Precedes x.path z) ∧
      (Path.Precedes p x.path → ∃ z ∈ stretch.stop?, z = x.path ∨ Path.Precedes z x.path) := by
  have hsorted : ∀ keep : Placed → Bool, (tree.placedTokens.filter keep).Pairwise fun a b => Path.Precedes a.path b.path :=
    fun keep => tree.pairwise_placedTokens.sublist List.filter_sublist
  have hsignified : ∀ x ∈ tree.placedTokens, x.isTrivia = false → tree.Signified x.path := fun x hx htrivia =>
    ⟨x.token, sub?_of_mem_placedTokens hx, htrivia⟩
  let front := tree.placedTokens.filter fun x => !x.isTrivia && decide (Path.Precedes x.path p)
  let back := tree.placedTokens.filter fun x => !x.isTrivia && decide (Path.Precedes p x.path)
  have hfront : ∀ {x}, x ∈ front ↔ x ∈ tree.placedTokens ∧ x.isTrivia = false ∧ Path.Precedes x.path p := by
    simp [front]
  have hback : ∀ {x}, x ∈ back ↔ x ∈ tree.placedTokens ∧ x.isTrivia = false ∧ Path.Precedes p x.path := by
    simp [back]
  have hlast : ∀ {x}, x ∈ front.getLast?.map Placed.path → ∃ z ∈ front, z.path = x := by
    intro x hx
    obtain ⟨z, hz, rfl⟩ := Option.map_eq_some_iff.1 hx
    exact ⟨z, List.mem_of_getLast? hz, rfl⟩
  have hhead : ∀ {y}, y ∈ back.head?.map Placed.path → ∃ z ∈ back, z.path = y := by
    intro y hy
    obtain ⟨z, hz, rfl⟩ := Option.map_eq_some_iff.1 hy
    exact ⟨z, List.mem_of_head? hz, rfl⟩
  refine ⟨⟨front.getLast?.map Placed.path, back.head?.map Placed.path⟩, ⟨fun x hx => ?_, fun y hy => ?_⟩,
    ⟨fun x hx => ?_, fun y hy => ?_⟩, fun x hx htrivia => ⟨fun hlt => ?_, fun hlt => ?_⟩⟩
  · obtain ⟨z, hz, rfl⟩ := hlast hx
    exact hsignified z (hfront.1 hz).1 (hfront.1 hz).2.1
  · obtain ⟨z, hz, rfl⟩ := hhead hy
    exact hsignified z (hback.1 hz).1 (hback.1 hz).2.1
  · obtain ⟨z, hz, rfl⟩ := hlast hx
    exact (hfront.1 hz).2.2
  · obtain ⟨z, hz, rfl⟩ := hhead hy
    exact (hback.1 hz).2.2
  · have hmem := hfront.2 ⟨hx, htrivia, hlt⟩
    have hpairwise : front.Pairwise fun a b => Path.Precedes a.path b.path := hsorted _
    obtain ⟨row, z, hrow⟩ := (List.eq_nil_or_concat' front).resolve_left (List.ne_nil_of_mem hmem)
    rw [hrow] at hmem hpairwise ⊢
    refine ⟨z.path, by simp, ?_⟩
    rcases List.mem_append.1 hmem with hmem | hmem
    · exact Or.inr ((List.pairwise_append.1 hpairwise).2.2 x hmem z (by simp))
    · exact Or.inl (by rw [List.mem_singleton.1 hmem])
  · have hmem := hback.2 ⟨hx, htrivia, hlt⟩
    have hpairwise : back.Pairwise fun a b => Path.Precedes a.path b.path := hsorted _
    obtain ⟨z, row, hrow⟩ := List.exists_cons_of_ne_nil (List.ne_nil_of_mem hmem)
    rw [hrow] at hmem hpairwise ⊢
    refine ⟨z.path, by simp, ?_⟩
    rcases List.mem_cons.1 hmem with rfl | hmem
    · exact Or.inl rfl
    · exact Or.inr ((List.pairwise_cons.1 hpairwise).1 x hmem)

/-- Parts with a significant token between any two of them are parted. -/
lemma parted_of_exists_between {tree : Tree} {paths : List Path}
    (hparts : ∀ p ∈ paths, p ≠ [] ∧ ∃ part, tree.sub? p = some part)
    (hapart : ∀ p ∈ paths, ∀ q ∈ paths, p <+: q → p = q)
    (hbetween : ∀ p ∈ paths, ∀ q ∈ paths, Path.Precedes p q →
      ∃ x ∈ tree.placedTokens, x.isTrivia = false ∧ Path.Precedes p x.path ∧ Path.Precedes x.path q) :
    tree.Parted paths := by
  intro p hp
  obtain ⟨hne, hpart⟩ := hparts p hp
  obtain ⟨stretch, hbounds, hholds, hnearest⟩ := tree.exists_stretch p
  refine ⟨hne, hpart, stretch, hbounds, hholds, fun q hq hqp => ?_⟩
  rcases Path.precedes_total p q with hlt | hlt | hwithin | hwithin
  · obtain ⟨x, hx, htrivia, hpx, hxq⟩ := hbetween p hp q hq hlt
    obtain ⟨z, hz, hzx⟩ := (hnearest x hx htrivia).2 hpx
    refine Or.inr ⟨z, hz, ?_⟩
    rcases hzx with rfl | hzx
    · exact hxq
    · exact hzx.trans hxq
  · obtain ⟨x, hx, htrivia, hqx, hxp⟩ := hbetween q hq p hp hlt
    obtain ⟨z, hz, hxz⟩ := (hnearest x hx htrivia).1 hxp
    refine Or.inl ⟨z, hz, ?_⟩
    rcases hxz with rfl | hxz
    · exact hqx
    · exact hqx.trans hxz
  · exact absurd (hapart p hp q hq hwithin).symm hqp
  · exact absurd (hapart q hq p hp hwithin) hqp

end Tree

namespace Rules

open SwiftTidy.Tree

/-- The clauses of a text that say nothing are parted. -/
lemma parted_sites (closures : Bool) (text : String) (regions : List Region) :
    (parse text).Parted (((voidReturn closures).sites (parse text) regions).map Site.path) := by
  have hsound := sound_parse text
  have hdescends := descends_parse text
  have hsite : ∀ p ∈ ((voidReturn closures).sites (parse text) regions).map Site.path,
      (voidReturn closures).HasSite (parse text) p := by
    intro p hp
    obtain ⟨site, hsite, rfl⟩ := List.mem_map.1 hp
    obtain ⟨⟨path, -, hfound⟩, -⟩ := Rule.mem_sites.1 hsite
    exact Rule.hasSite_iff.2 ⟨site, (find_voidReturn hfound).1 ▸ hfound⟩
  refine parted_of_exists_between (fun p hp => ?_) (fun p hp q hq => ?_) fun p hp q hq => ?_
  · obtain ⟨site, hfound⟩ := Rule.hasSite_iff.1 (hsite p hp)
    obtain ⟨clause, hclause⟩ := sub?_of_hasSite hdescends.shaped (hsite p hp)
    exact ⟨(find_voidReturn hfound).2.ne_nil, _, hclause⟩
  · exact hsound.eq_of_isPrefix hdescends.shaped (hsite p hp) (hsite q hq)
  · exact hsound.exists_between_clauses hdescends.shaped (by rw [hdescends.root]; simp [Kind.rank]) (hsite q hq)
      (hsite p hp)

/-- The clauses of a text that say nothing can be removed in any order, and what is left in the end has the same tokens, so
it reads the same. -/
theorem leaves_removeInTurn (closures : Bool) (text : String) (regions : List Region) {order order' : List Site}
    (h : order.Perm ((voidReturn closures).sites (parse text) regions))
    (h' : order'.Perm ((voidReturn closures).sites (parse text) regions)) :
    ∃ edit edit', (Edit.keep (parse text)).removeInTurn (order.map Site.path) = some edit ∧
      (Edit.keep (parse text)).removeInTurn (order'.map Site.path) = some edit' ∧
      edit.tree.leaves = edit'.tree.leaves ∧ edit.tree.text = edit'.tree.text := by
  have hparted := parted_sites closures text regions
  have hfind : (voidReturn closures).FindsInPlace := fun hfound => (find_voidReturn hfound).1
  have hnodup : (((voidReturn closures).sites (parse text) regions).map Site.path).Nodup := Rule.nodup_paths_sites hfind
  have hrun : ∀ {sites : List Site}, sites.Perm ((voidReturn closures).sites (parse text) regions) →
      ∃ edit, (Edit.keep (parse text)).removeInTurn (sites.map Site.path) = some edit ∧
        Edit.Stripped (parse text) (((voidReturn closures).sites (parse text) regions).map Site.path)
          (sites.map Site.path).reverse edit := by
    intro sites hsites
    have hperm := hsites.map Site.path
    obtain ⟨edit, hedit, hstripped⟩ := (Edit.Stripped.init hparted).run hparted
      (fun p hp => ⟨hperm.mem_iff.1 hp, by simp⟩) (hperm.nodup_iff.2 hnodup)
    exact ⟨edit, hedit, by simpa using hstripped⟩
  obtain ⟨edit, hedit, hstripped⟩ := hrun h
  obtain ⟨edit', hedit', hstripped'⟩ := hrun h'
  have hleaves : edit.tree.leaves = edit'.tree.leaves := by
    rw [hstripped.leaves_eq, hstripped'.leaves_eq]
    simp only [List.mem_reverse, ((h.trans h'.symm).map Site.path).mem_iff]
  exact ⟨edit, edit', hedit, hedit', hleaves, by rw [Tree.text, Tree.text, hleaves]⟩

/-- A clause on a line of its own and one in a closure, the last one first and the first one first. -/
theorem leaves_removeInTurn_reverse :
    let tree := parse "func f(\n)\n  -> Void { g { () -> () in } }\n"
    let sites := (voidReturn true).sites tree []
    sites.length = 2 ∧ ∃ edit edit', (Edit.keep tree).removeInTurn (sites.reverse.map Site.path) = some edit ∧
      (Edit.keep tree).removeInTurn (sites.map Site.path) = some edit' ∧
      edit.tree.leaves = edit'.tree.leaves ∧ edit.tree.text = edit'.tree.text := by
  intro tree sites
  exact ⟨(Rule.sites_perm (voidReturn true) tree []).length_eq.trans (by decide +kernel),
    leaves_removeInTurn true _ [] (List.reverse_perm _) (List.Perm.refl _)⟩

end Rules

end SwiftTidy

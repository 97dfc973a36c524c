import SwiftTidy.Proofs.Descent

/-!
# A part in the place of another

Where a part of a tree is exchanged for another tree, everything before and behind it stays where it is. What stands
around a place before it is the same up to the part (`Tree.around_replaceAt_left`), and what is taken out there can be
taken out before or after the exchange (`Tree.prune_replaceAt`). Taking something out of a part is itself an exchange
(`Tree.prune_map_append`).
-/

namespace SwiftTidy

namespace Tree

/-! ## Exchanges -/

variable {gone : List Path} {q p q' : Path} {tree part old : Tree}

lemma replaceAt_replaceAt (tree : Tree) (q : Path) (a b : Tree) :
    (tree.replaceAt q a).replaceAt q b = tree.replaceAt q b := by
  induction q generalizing tree with
  | nil => rfl
  | cons i q ih =>
    cases tree with
    | leaf token => rfl
    | node kind children =>
      rw [replaceAt, replaceAt, replaceAt, List.modify_modify_eq]
      congr 2
      funext child
      exact ih child

/-! ## Slots -/

/-- What stands around a place before a part that is exchanged. -/
lemma around_replaceAt_left (hold : tree.sub? q = some old) (hpq : Path.Precedes p q) :
    ∃ before between after, (∀ slot ∈ between, Path.Precedes slot.path q ∧ slot ∈ tree.slots) ∧
      ∀ new part : Tree, (tree.replaceAt q new).sub? p = some part →
        (tree.replaceAt q new).around p = ⟨before, between ++ (new.slots.map (Slot.under q) ++ after)⟩ := by
  obtain ⟨before, after, hslots, -, hbefore, hafter⟩ := exists_slots_replaceAt hold
  refine ⟨(before.filter fun slot => Path.Precedes slot.path p).reverse,
    before.filter fun slot => Path.Precedes p slot.path, after, fun slot hslot => ?_, fun new part hpart => ?_⟩
  · have hmem := List.mem_of_mem_filter hslot
    refine ⟨hbefore slot hmem, ?_⟩
    rw [← replaceAt_self hold, hslots]
    simp [hmem]
  have hbehind : ∀ slot ∈ new.slots.map (Slot.under q) ++ after, Path.Precedes p slot.path := by
    intro slot hslot
    rcases List.mem_append.1 hslot with hslot | hslot
    · obtain ⟨inner, -, rfl⟩ := List.mem_map.1 hslot
      simpa using hpq.append [] inner.path
    · exact hpq.trans (hafter slot hslot)
  rw [around_eq_filter hpart, hslots, List.append_assoc, List.filter_append, List.filter_append before]
  simp only [filter_of_behind hbehind, List.append_nil]

/-- What stands around a part stays in an exchange. -/
lemma around_replaceAt_self (hold : tree.sub? q = some old) (new : Tree) :
    (tree.replaceAt q new).around q = tree.around q := by
  obtain ⟨before, after, hslots, -, hbefore, hafter⟩ := exists_slots_replaceAt hold
  have hinside : ∀ X : Tree, ((tree.replaceAt q X).slots.filter fun slot => Path.Precedes slot.path q) = before ∧
      ((tree.replaceAt q X).slots.filter fun slot => Path.Precedes q slot.path) = after := by
    intro X
    have hleft : ((X.slots.map (Slot.under q)).filter fun slot => Path.Precedes slot.path q) = [] := by
      refine List.filter_eq_nil_iff.2 fun slot hslot => ?_
      obtain ⟨inner, -, rfl⟩ := List.mem_map.1 hslot
      simpa using fun h : Path.Precedes _ q => h.apart.2 (List.prefix_append q _)
    have hright : ((X.slots.map (Slot.under q)).filter fun slot => Path.Precedes q slot.path) = [] := by
      refine List.filter_eq_nil_iff.2 fun slot hslot => ?_
      obtain ⟨inner, -, rfl⟩ := List.mem_map.1 hslot
      simpa using fun h : Path.Precedes q _ => h.apart.1 (List.prefix_append q _)
    simp only [hslots, List.filter_append, hleft, hright, filter_of_ahead hbefore, filter_of_behind hafter,
      List.append_nil, List.nil_append, and_self]
  have hself := hinside old
  rw [replaceAt_self hold] at hself
  rw [around_eq_filter (sub?_replaceAt_self new hold), around_eq_filter hold, (hinside new).1, (hinside new).2, hself.1,
    hself.2]

lemma before_around_first {slot : Slot} {rest : List Slot} (h : tree.slots = slot :: rest) {token : Token}
    (htoken : slot.token? = some token) : (tree.around slot.path).before = [] := by
  have hmem : Placed.mk slot.up token ∈ tree.placedTokens :=
    List.mem_filterMap.2 ⟨slot, by simp [h], by simp [Slot.placed?, htoken]⟩
  have hleaf : tree.sub? slot.path = some (.leaf token) := sub?_of_mem_placedTokens hmem
  have hsorted := tree.pairwise_slots
  rw [h, List.pairwise_cons] at hsorted
  have hrest := filter_of_behind hsorted.1
  rw [around_eq_filter hleaf, h, List.filter_cons_of_neg (by simpa using Path.Precedes.irrefl slot.path), hrest.1]
  rfl

/-- What stands around a place in a part is what stands around it within the part, and then what stands around
the part. -/
lemma around_append {inner : Tree} {r : Path} (h : tree.sub? p = some part) (hr : part.sub? r = some inner) :
    tree.around (p ++ r) =
      ⟨(part.around r).before.map (Slot.under p) ++ (tree.around p).before,
        (part.around r).after.map (Slot.under p) ++ (tree.around p).after⟩ := by
  have hinner : tree.sub? (p ++ r) = some inner := (sub?_append_some h r).trans hr
  obtain ⟨before, after, hslots, haround, -, hbefore, hafter⟩ := exists_around h
  rw [around_eq_filter hinner, around_eq_filter hr, haround, hslots]
  have hleft : ∀ slot ∈ before, Path.Precedes slot.path (p ++ r) := fun slot hslot => by
    simpa using (hbefore slot hslot).append [] r
  have hright : ∀ slot ∈ after, Path.Precedes (p ++ r) slot.path := fun slot hslot => by
    simpa using (hafter slot hslot).append r []
  simp only [List.filter_append, List.filter_map, filter_of_ahead hleft, filter_of_behind hright, Function.comp_def,
    Slot.path_under, Path.append_precedes_append, List.append_nil, List.nil_append, List.reverse_append, List.map_reverse]

/-! ## Taking out and exchanging -/

mutual

@[simp] lemma prune_nil (tree : Tree) : tree.prune [] = tree := by
  cases tree with
  | leaf token => rfl
  | node kind children => rw [prune, pruneOf_nil]

@[simp] lemma pruneOf_nil (i : Nat) (trees : List Tree) : pruneOf [] i trees = trees := by
  cases trees with
  | nil => rfl
  | cons tree rest =>
    have hbelow : Path.below i [] = [] := rfl
    rw [pruneOf, hbelow, prune_nil tree, pruneOf_nil (i + 1) rest]
    rfl

end

@[simp] lemma afterPruning_nil (p : Path) : Path.afterPruning [] p = some p :=
  Path.afterPruning_eq_self (by simp)

lemma pruneOf_append (gone : List Path) (i : Nat) (front back : List Tree) :
    pruneOf gone i (front ++ back) = pruneOf gone i front ++ pruneOf gone (i + front.length) back := by
  induction front generalizing i with
  | nil => simp [pruneOf]
  | cons tree rest ih =>
    have hindex : i + 1 + rest.length = i + (rest.length + 1) := by omega
    rw [List.cons_append, pruneOf, pruneOf, ih, List.length_cons, hindex]
    split <;> simp

lemma length_pruneOf (h : gone.Nodup) (front : List Tree) :
    (pruneOf gone 0 front).length = front.length - Path.shift gone front.length := by
  induction front using List.reverseRecOn with
  | nil => simp [pruneOf]
  | append_singleton front tree ih =>
    have hle := Path.shift_le h front.length
    rw [pruneOf_append, List.length_append, ih, Nat.zero_add, pruneOf, List.contains_eq_mem, List.length_append,
      List.length_singleton, Path.shift_succ h, pruneOf]
    by_cases hgone : [front.length] ∈ gone
    · simp [hgone]
    · simp only [hgone, decide_false, Bool.false_eq_true, if_false, List.length_singleton, Nat.add_zero]
      omega

lemma sub?_prune_of_not (hnodup : gone.Nodup) (hout : ∀ r ∈ gone, ¬ q <+: r) (hq : Path.afterPruning gone q = some q')
    (hpart : tree.sub? q = some part) : (tree.prune gone).sub? q' = some part := by
  have hnone : Path.inside q gone = [] := List.eq_nil_iff_forall_not_mem.2 fun r hr =>
    hout _ (Path.mem_inside.1 hr) (List.prefix_append q r)
  have hsub := Trimming.sub?_prune hnodup hq hpart
  rwa [hnone, prune_nil] at hsub

/-- What is taken out elsewhere can be taken out before or after an exchange. -/
lemma prune_replaceAt (hnodup : gone.Nodup) (hold : tree.sub? q = some old) (hout : ∀ r ∈ gone, ¬ q <+: r)
    (hq : Path.afterPruning gone q = some q') (new : Tree) :
    (tree.replaceAt q new).prune gone = (tree.prune gone).replaceAt q' new := by
  induction q, tree, hold using sub?_induction generalizing gone q' with
  | here =>
    obtain rfl : gone = [] := List.eq_nil_iff_forall_not_mem.2 fun r hr => hout r hr List.nil_prefix
    obtain rfl : q' = [] := by simpa using hq.symm
    simp [replaceAt]
  | inside kind front child back q hpart ih =>
    rw [Path.afterPruning_cons] at hq
    split at hq
    · simp at hq
    next hstays =>
      obtain ⟨rest, hrest, rfl⟩ := Option.map_eq_some_iff.1 hq
      have hinner := ih (Path.nodup_below hnodup _)
        (fun r hr hwithin => hout (_ :: r) (Path.mem_below.1 hr) (by simpa [List.cons_prefix_cons] using hwithin)) hrest
      rw [replaceAt_node_length, prune, prune, pruneOf_append, pruneOf_append, pruneOf, pruneOf,
        List.contains_eq_mem, Nat.zero_add, ← length_pruneOf hnodup]
      simp only [hstays, decide_false, Bool.false_eq_true, if_false]
      rw [replaceAt_node_length, hinner]

lemma below_map_append (i j : Nat) (c : Path) :
    Path.below j (gone.map (i :: c ++ ·)) = if i = j then gone.map (c ++ ·) else [] := by
  rw [Path.below, List.filterMap_map]
  by_cases hij : i = j
  · subst hij
    simp
  · simp [hij]

lemma singleton_not_mem_map_append (hgone : [] ∉ gone) (i j : Nat) (c : Path) : [j] ∉ gone.map (i :: c ++ ·) := by
  rintro h
  obtain ⟨r, hr, heq⟩ := List.mem_map.1 h
  simp only [List.cons_append, List.cons.injEq, List.append_eq_nil_iff] at heq
  exact hgone (heq.2.2 ▸ hr)

/-- Taking something out of a part exchanges the part. -/
lemma prune_map_append (hgone : [] ∉ gone) {c : Path} (hpart : tree.sub? c = some part) :
    tree.prune (gone.map (c ++ ·)) = tree.replaceAt c (part.prune gone) := by
  induction c, tree, hpart using sub?_induction with
  | here => simp [replaceAt]
  | inside kind front child back c hpart ih =>
    have hkeep : ∀ (k : Nat) (trees : List Tree), (∀ j, k ≤ j → j < k + trees.length → j ≠ front.length) →
        pruneOf (gone.map (front.length :: c ++ ·)) k trees = trees := by
      intro k trees
      induction trees generalizing k with
      | nil => simp [pruneOf]
      | cons tree rest ih =>
        intro hne
        have hk : front.length ≠ k := (hne k le_rfl (by simp)).symm
        rw [pruneOf, List.contains_eq_mem, decide_eq_false (singleton_not_mem_map_append hgone _ _ _), below_map_append,
          if_neg hk, prune_nil, ih (k + 1) fun j hj hlt => hne j (by omega) (by simp only [List.length_cons]; omega)]
        rfl
    rw [prune, replaceAt_node_length, pruneOf_append, pruneOf, List.contains_eq_mem,
      decide_eq_false (singleton_not_mem_map_append hgone _ _ _), hkeep 0 front (by omega), below_map_append,
      Nat.zero_add, if_pos rfl, ih, hkeep _ back (by omega)]
    rfl

end Tree

namespace Path

open SwiftTidy.Tree

variable {c p : Path} {gone : List Path}

lemma afterPruning_of_isPrefix (h : afterPruning gone p = some p) (hc : c <+: p) : afterPruning gone c = some c := by
  induction c generalizing gone p with
  | nil => rfl
  | cons i c ih =>
    obtain ⟨r, rfl⟩ := hc
    rw [List.cons_append, afterPruning_cons] at h
    rw [afterPruning_cons]
    split at h
    · simp at h
    · obtain ⟨rest, hrest, hcons⟩ := Option.map_eq_some_iff.1 h
      obtain ⟨hshift, rfl⟩ := List.cons.inj hcons
      rw [if_neg (by assumption), ih hrest (List.prefix_append c r), hshift]
      rfl

lemma shift_map_append (hgone : [] ∉ gone) {i j : Nat} : shift (gone.map (i :: c ++ ·)) j = 0 := by
  rw [shift, List.countP_eq_zero]
  intro r hr
  obtain ⟨s, hs, rfl⟩ := List.mem_map.1 hr
  have hne : c ++ s ≠ [] := fun h => hgone ((List.append_eq_nil_iff.1 h).2 ▸ hs)
  obtain ⟨k, rest, hcons⟩ := List.exists_cons_of_ne_nil hne
  simp [hcons]

lemma afterPruning_map_append_of_above (hgone : [] ∉ gone) (h : c <+: p → p = c) :
    afterPruning (gone.map (c ++ ·)) p = some p := by
  induction c generalizing p with
  | nil =>
    obtain rfl := h List.nil_prefix
    rfl
  | cons i c ih =>
    cases p with
    | nil => rfl
    | cons j p =>
      rw [afterPruning_cons, if_neg (singleton_not_mem_map_append hgone _ _ _), below_map_append,
        shift_map_append hgone]
      by_cases hij : i = j
      · subst hij
        simp [ih (p := p) (by simpa [List.cons_prefix_cons] using h)]
      · simp [hij]

end Path

end SwiftTidy

import SwiftTidy.Proofs.Places
import SwiftTidy.Syntax.Part
import Mathlib.Data.List.Nodup

/-!
# Taking parts out of a tree

Where parts are taken out of a tree, the parts that stay keep their order and lead into each other as before.
Everything that the tree without them holds comes from the whole tree: its parts are the parts of the whole
tree that stay, at the places they have moved to, each without what was taken out of it (`Tree.parts_prune`).
-/

namespace SwiftTidy

namespace Path

/-! ## How indices move -/

/-- How many children before number `i` are taken out. -/
def shift (gone : List Path) (i : Nat) : Nat :=
  gone.countP fun other =>
    match other with
    | [j] => j < i
    | _ => false

lemma afterPruning_cons (gone : List Path) (i : Nat) (p : Path) :
    afterPruning gone (i :: p) =
      if [i] ∈ gone then none
      else (afterPruning (below i gone) p).map fun rest => (i - shift gone i) :: rest := by
  rw [afterPruning, List.contains_eq_mem]
  simp only [decide_eq_true_eq]
  rfl

variable {gone : List Path} {i : Nat} {p p' q q' : Path}

@[simp] lemma mem_below : p ∈ below i gone ↔ i :: p ∈ gone := by
  simp only [below, List.mem_filterMap]
  constructor
  · rintro ⟨q, hq, hp⟩
    cases q with
    | nil => simp at hp
    | cons j q =>
      simp only [beq_iff_eq, Option.ite_none_right_eq_some, Option.some.injEq] at hp
      obtain ⟨rfl, rfl⟩ := hp
      exact hq
  · intro h
    exact ⟨i :: p, h, by simp⟩

lemma nodup_below (h : gone.Nodup) (i : Nat) : (below i gone).Nodup := by
  refine List.Nodup.filterMap ?_ h
  intro p q r hp hq
  cases p with
  | nil => simp at hp
  | cons j p =>
    cases q with
    | nil => simp at hq
    | cons k q => simp_all

lemma shift_zero (gone : List Path) : shift gone 0 = 0 := by
  rw [shift, List.countP_eq_zero]
  intro p _
  match p with
  | [] | [_] | _ :: _ :: _ => simp

lemma shift_succ (h : gone.Nodup) (i : Nat) : shift gone (i + 1) = shift gone i + if [i] ∈ gone then 1 else 0 := by
  induction gone with
  | nil => simp [shift]
  | cons p rest ih =>
    obtain ⟨hp, hrest⟩ := List.nodup_cons.1 h
    have ih := ih hrest
    simp only [shift, List.countP_cons] at ih ⊢
    match p with
    | [] => simpa using ih
    | _ :: _ :: _ => simpa using ih
    | [j] =>
      rcases Nat.lt_trichotomy j i with hlt | rfl | hgt
      · have hne : ¬ [i] = [j] := by simp; omega
        simp only [List.mem_cons, hne, false_or]
        have h1 : decide (j < i + 1) = true := by simp; omega
        have h2 : decide (j < i) = true := by simpa using hlt
        simp only [h1, h2, if_true]
        omega
      · simp only [hp, if_false] at ih
        rw [ih]
        simp
      · have hne : ¬ [i] = [j] := by simp; omega
        simp only [List.mem_cons, hne, false_or]
        have h1 : decide (j < i + 1) = false := by simp; omega
        have h2 : decide (j < i) = false := by simp; omega
        simp only [h1, h2]
        simpa using ih

lemma shift_le (h : gone.Nodup) (i : Nat) : shift gone i ≤ i := by
  induction i with
  | zero => simp [shift_zero]
  | succ i ih =>
    rw [shift_succ h]
    split <;> omega

lemma sub_shift_lt (h : gone.Nodup) {j : Nat} (hi : [i] ∉ gone) (hij : i < j) :
    i - shift gone i < j - shift gone j := by
  induction j with
  | zero => omega
  | succ j ih =>
    have hle := shift_le h i
    have hlej := shift_le h j
    rw [shift_succ h]
    rcases Nat.lt_succ_iff_lt_or_eq.1 hij with hlt | rfl
    · have := ih hlt
      split <;> omega
    · simp only [hi, if_false]
      omega

/-! ## How paths move -/

/-- The parts that are no longer there are those inside what is taken out. -/
lemma afterPruning_eq_none_iff : afterPruning gone p = none ↔ ∃ q ∈ gone, q ≠ [] ∧ q <+: p := by
  induction p generalizing gone with
  | nil => simp [afterPruning]
  | cons i p ih =>
    rw [afterPruning_cons]
    by_cases hi : [i] ∈ gone
    · simp only [hi, if_true, true_iff]
      exact ⟨[i], hi, by simp, by simp⟩
    · simp only [hi, if_false, Option.map_eq_none_iff, ih, mem_below]
      constructor
      · rintro ⟨q, hq, _, hwithin⟩
        exact ⟨i :: q, hq, by simp, by simpa [List.cons_prefix_cons] using hwithin⟩
      · rintro ⟨q, hq, hne, hwithin⟩
        cases q with
        | nil => simp at hne
        | cons j q =>
          obtain ⟨rfl, htail⟩ := List.cons_prefix_cons.1 hwithin
          refine ⟨q, hq, ?_, htail⟩
          rintro rfl
          exact hi hq

/-- What is to the left of everything that is taken out stays where it is. -/
lemma afterPruning_eq_self (h : ∀ q ∈ gone, Precedes p q) : afterPruning gone p = some p := by
  induction p generalizing gone with
  | nil => rfl
  | cons i p ih =>
    have hi : [i] ∉ gone := by
      intro hmem
      simpa using h _ hmem
    have hshift : shift gone i = 0 := by
      rw [shift, List.countP_eq_zero]
      intro q hq
      have hprec := h q hq
      match q with
      | [] | _ :: _ :: _ => simp
      | [j] =>
        simp only [cons_precedes_cons, not_precedes_nil, and_false, or_false] at hprec
        simp only [decide_eq_true_eq]
        omega
    have hrest : afterPruning (below i gone) p = some p := by
      refine ih fun q hq => ?_
      simpa using h _ (mem_below.1 hq)
    rw [afterPruning_cons, if_neg hi, hrest, hshift]
    simp

/-- What stays keeps its order and its nesting. -/
lemma afterPruning_mono (h : gone.Nodup) (hp : afterPruning gone p = some p') (hq : afterPruning gone q = some q') :
    (Precedes p q → Precedes p' q') ∧ (p <+: q → p' <+: q') := by
  induction p generalizing gone p' q q' with
  | nil =>
    simp only [afterPruning, Option.some.injEq] at hp
    simp [← hp]
  | cons i p ih =>
    cases q with
    | nil => simp
    | cons j q =>
      rw [afterPruning_cons] at hp hq
      by_cases hi : [i] ∈ gone
      · simp [hi] at hp
      by_cases hj : [j] ∈ gone
      · simp [hj] at hq
      simp only [hi, hj, if_false, Option.map_eq_some_iff] at hp hq
      obtain ⟨p₁, hp₁, rfl⟩ := hp
      obtain ⟨q₁, hq₁, rfl⟩ := hq
      constructor
      · rintro (hlt | ⟨rfl, hpq⟩)
        · exact Or.inl (sub_shift_lt h hi hlt)
        · exact Or.inr ⟨rfl, (ih (nodup_below h i) hp₁ hq₁).1 hpq⟩
      · intro hwithin
        obtain ⟨rfl, htail⟩ := List.cons_prefix_cons.1 hwithin
        exact List.cons_prefix_cons.2 ⟨rfl, (ih (nodup_below h i) hp₁ hq₁).2 htail⟩

lemma length_afterPruning (h : afterPruning gone p = some p') : p'.length = p.length := by
  induction p generalizing gone p' with
  | nil =>
    simp only [afterPruning, Option.some.injEq] at h
    simp [← h]
  | cons i p ih =>
    rw [afterPruning_cons] at h
    by_cases hi : [i] ∈ gone
    · simp [hi] at h
    · simp only [hi, if_false, Option.map_eq_some_iff] at h
      obtain ⟨p₁, hp₁, rfl⟩ := h
      simp [ih hp₁]

section

variable (h : gone.Nodup) (hp : afterPruning gone p = some p') (hq : afterPruning gone q = some q')

include h hp hq

lemma afterPruning_prefix_iff : p' <+: q' ↔ p <+: q := by
  refine ⟨fun hwithin => ?_, (afterPruning_mono h hp hq).2⟩
  rcases precedes_total p q with hlt | hgt | hpq | hqp
  · exact absurd hwithin ((afterPruning_mono h hp hq).1 hlt).apart.1
  · exact absurd hwithin ((afterPruning_mono h hq hp).1 hgt).apart.2
  · exact hpq
  · -- a path that leads into another one and is no shorter is that one
    have hle := hwithin.length_le
    rw [length_afterPruning hp, length_afterPruning hq] at hle
    rw [hqp.eq_of_length_le hle]

lemma afterPruning_precedes_iff : Precedes p' q' ↔ Precedes p q := by
  refine ⟨fun hprec => ?_, (afterPruning_mono h hp hq).1⟩
  rcases precedes_total p q with hlt | hgt | hpq | hqp
  · exact hlt
  · exact absurd hprec ((afterPruning_mono h hq hp).1 hgt).asymm
  · exact absurd ((afterPruning_mono h hp hq).2 hpq) hprec.apart.1
  · exact absurd ((afterPruning_mono h hq hp).2 hqp) hprec.apart.2

end

/-- What is taken out of the part at a path, seen from that part. -/
def inside : Path → List Path → List Path
  | [], gone => gone
  | i :: p, gone => inside p (below i gone)

@[simp] lemma inside_nil (gone : List Path) : inside [] gone = gone := rfl

@[simp] lemma inside_cons (i : Nat) (p : Path) (gone : List Path) :
    inside (i :: p) gone = inside p (below i gone) := rfl

@[simp] lemma mem_inside : q ∈ inside p gone ↔ p ++ q ∈ gone := by
  induction p generalizing gone with
  | nil => rfl
  | cons i p ih => simp [ih]

/-- A walk that visits nodes before their children comes to one place before the other. -/
def Before (p q : Path) : Prop := Precedes p q ∨ p <+: q ∧ p ≠ q

lemma Before.asymm (h : Before p q) : ¬ Before q p := by
  rcases h with h | ⟨h, hne⟩
  · rintro (h' | ⟨h', -⟩)
    · exact h.asymm h'
    · exact h.apart.2 h'
  · rintro (h' | ⟨h', -⟩)
    · exact h'.apart.2 h
    · exact hne (h.eq_of_length_le h'.length_le)

lemma Before.irrefl (p : Path) : ¬ Before p p := fun h => h.asymm h

instance : Std.Antisymm Before := ⟨fun _ _ h h' => absurd h' h.asymm⟩

lemma before_cons_cons (h : Before p q) : Before (i :: p) (i :: q) := by
  rcases h with h | ⟨h, hne⟩
  · exact Or.inl (by simpa using h)
  · exact Or.inr ⟨by simpa [List.cons_prefix_cons] using h, by simpa using hne⟩

end Path

/-! ## All parts of a tree -/

namespace Part

/-- A part of the part at a path, seen from the root. -/
def under (path : Path) (part : Part) : Part := ⟨path ++ part.path, part.tree⟩

/-- What becomes of a part where the parts at the paths `gone` are taken out. -/
def pruned? (gone : List Path) (part : Part) : Option Part :=
  (Path.afterPruning gone part.path).map fun path => ⟨path, part.tree.prune (Path.inside part.path gone)⟩

/-- The part as a token with its place, if it is a leaf. -/
def placed? (part : Part) : Option Placed := part.tree.token?.map (Placed.mk part.path.reverse)

/-- The path of the part, if it is a node. -/
def nodePath? (part : Part) : Option Path := if part.tree.isNode then some part.path else none

/-- The slot that a part makes, if it is a token or a node without children. -/
def slot? : Part → Option Slot
  | ⟨p, .leaf token⟩ => some ⟨p.reverse, some token⟩
  | ⟨p, .node _ []⟩ => some ⟨p.reverse, none⟩
  | ⟨_, .node _ (_ :: _)⟩ => none

lemma path_of_slot? {part : Part} {slot : Slot} (h : part.slot? = some slot) : slot.path = part.path := by
  obtain ⟨p, t⟩ := part
  match t with
  | .leaf token | .node _ [] =>
    simp only [slot?, Option.some.injEq] at h
    simp [← h, Slot.path]
  | .node _ (_ :: _) => simp [slot?] at h

lemma slot?_under (p : Path) (part : Part) : (part.under p).slot? = part.slot?.map (Slot.under p) := by
  obtain ⟨q, t⟩ := part
  match t with
  | .leaf token | .node _ [] | .node _ (_ :: _) => simp [under, slot?, Slot.under]

end Part

namespace Tree

mutual

/-- All parts of a tree, a node before its children. -/
def parts : Tree → List Part
  | .leaf token => [⟨[], .leaf token⟩]
  | .node kind children => ⟨[], .node kind children⟩ :: partsFrom 0 children

/-- All parts of several children in a row, the first of which is number `i`. -/
def partsFrom (i : Nat) : List Tree → List Part
  | [] => []
  | tree :: rest => tree.parts.map (Part.under [i]) ++ partsFrom (i + 1) rest

end

mutual

lemma slots_eq_parts (tree : Tree) : tree.slots = tree.parts.filterMap Part.slot? := by
  match tree with
  | .leaf token => rfl
  | .node kind [] => rfl
  | .node kind (child :: rest) =>
    rw [slots_node kind (by simp), parts, List.filterMap_cons_none rfl, slotsFrom_eq_partsFrom 0 (child :: rest)]

lemma slotsFrom_eq_partsFrom (i : Nat) (trees : List Tree) :
    slotsFrom i trees = (partsFrom i trees).filterMap Part.slot? := by
  cases trees with
  | nil => rfl
  | cons tree rest =>
    rw [slotsFrom, partsFrom, List.filterMap_append, slots_eq_parts tree, slotsFrom_eq_partsFrom (i + 1) rest,
      List.filterMap_map, List.map_filterMap]
    congr 2
    funext part
    exact (Part.slot?_under [i] part).symm

end

lemma placedTokens_eq_parts (tree : Tree) : tree.placedTokens = tree.parts.filterMap Part.placed? := by
  rw [placedTokens, slots_eq_parts, List.filterMap_filterMap]
  congr 1
  funext part
  obtain ⟨p, t⟩ := part
  cases t with
  | leaf token => rfl
  | node kind children => cases children <;> rfl

mutual

lemma nodePaths_eq_parts (tree : Tree) : tree.nodePaths = tree.parts.filterMap Part.nodePath? := by
  cases tree with
  | leaf token => rfl
  | node kind children =>
    rw [nodePaths, parts, List.filterMap_cons, nodePathsOf_eq_partsFrom]
    rfl

lemma nodePathsOf_eq_partsFrom (i : Nat) (trees : List Tree) :
    nodePathsOf i trees = (partsFrom i trees).filterMap Part.nodePath? := by
  cases trees with
  | nil => rfl
  | cons tree rest =>
    rw [nodePathsOf, partsFrom, List.filterMap_append, ← nodePathsOf_eq_partsFrom (i + 1) rest,
      nodePaths_eq_parts tree, List.filterMap_map, List.map_filterMap]
    congr 2
    funext part
    cases h : part.tree.isNode <;> simp [Part.nodePath?, Part.under, h]

end

mutual

lemma mem_parts {tree : Tree} {part : Part} : part ∈ tree.parts ↔ tree.sub? part.path = some part.tree := by
  obtain ⟨p, t⟩ := part
  cases tree with
  | leaf token => cases p <;> simp [parts, sub?, eq_comm]
  | node kind children =>
    cases p with
    | nil =>
      have hnot : ⟨[], t⟩ ∉ partsFrom 0 children := by
        rw [mem_partsFrom]
        simp
      simp [parts, hnot, eq_comm]
    | cons i p =>
      rw [parts, List.mem_cons, mem_partsFrom, sub?_node_cons, Option.bind_eq_some_iff]
      simp

lemma mem_partsFrom {k : Nat} {trees : List Tree} {part : Part} :
    part ∈ partsFrom k trees ↔
      ∃ i child p, trees[i]? = some child ∧ part.path = (k + i) :: p ∧ child.sub? p = some part.tree := by
  cases trees with
  | nil => simp [partsFrom]
  | cons tree rest =>
    rw [partsFrom, List.mem_append, List.mem_map, mem_partsFrom]
    constructor
    · rintro (⟨inner, hinner, rfl⟩ | ⟨i, child, p, hchild, hp, hsub⟩)
      · exact ⟨0, tree, inner.path, rfl, rfl, mem_parts.1 hinner⟩
      · have hindex : k + 1 + i = k + (i + 1) := by omega
        exact ⟨i + 1, child, p, by simpa using hchild, by rw [hp, hindex], hsub⟩
    · rintro ⟨i, child, p, hchild, hp, hsub⟩
      obtain ⟨path, t⟩ := part
      cases i with
      | zero =>
        simp only [List.getElem?_cons_zero, Option.some.injEq] at hchild
        subst hchild
        exact Or.inl ⟨⟨p, t⟩, mem_parts.2 hsub, by simp_all [Part.under]⟩
      | succ i =>
        have hindex : k + 1 + i = k + (i + 1) := by omega
        exact Or.inr ⟨i, child, p, by simpa using hchild, by rw [hp, hindex], hsub⟩

end

mutual

lemma pairwise_parts (tree : Tree) : tree.parts.Pairwise fun a b => Path.Before a.path b.path := by
  cases tree with
  | leaf token => simp [parts]
  | node kind children =>
    rw [parts, List.pairwise_cons]
    refine ⟨fun part hpart => ?_, pairwise_partsFrom 0 children⟩
    obtain ⟨i, child, p, -, hp, -⟩ := mem_partsFrom.1 hpart
    exact Or.inr ⟨List.nil_prefix, by simp [hp]⟩

lemma pairwise_partsFrom (i : Nat) (trees : List Tree) :
    (partsFrom i trees).Pairwise fun a b => Path.Before a.path b.path := by
  cases trees with
  | nil => simp [partsFrom]
  | cons tree rest =>
    rw [partsFrom, List.pairwise_append, List.pairwise_map]
    refine ⟨(pairwise_parts tree).imp Path.before_cons_cons, pairwise_partsFrom (i + 1) rest, fun a ha b hb => ?_⟩
    obtain ⟨inner, -, rfl⟩ := List.mem_map.1 ha
    obtain ⟨j, child, p, -, hp, -⟩ := mem_partsFrom.1 hb
    exact Or.inl (by rw [hp]; exact Or.inl (by omega))

end

lemma pairwise_nodePaths (tree : Tree) : tree.nodePaths.Pairwise Path.Before := by
  rw [nodePaths_eq_parts]
  refine tree.pairwise_parts.filterMap _ fun a b hab p hp q hq => ?_
  simp only [Part.nodePath?, Option.ite_none_right_eq_some, Option.some.injEq] at hp hq
  rwa [← hp.2, ← hq.2]

lemma nodup_nodePaths (tree : Tree) : tree.nodePaths.Nodup := by
  refine List.nodup_iff_pairwise_ne.2 (tree.pairwise_nodePaths.imp ?_)
  rintro p q h rfl
  exact Path.Before.irrefl p h

/-! ## What is left -/

variable {gone : List Path} {i : Nat}

lemma pruned?_under_of_mem (h : [i] ∈ gone) (part : Part) : (part.under [i]).pruned? gone = none := by
  simp [Part.pruned?, Part.under, Path.afterPruning_cons, h]

lemma pruned?_under (h : [i] ∉ gone) (part : Part) :
    (part.under [i]).pruned? gone =
      (part.pruned? (Path.below i gone)).map (Part.under [i - Path.shift gone i]) := by
  simp [Part.pruned?, Part.under, Path.afterPruning_cons, h, Function.comp_def]

mutual

lemma parts_prune {gone : List Path} (h : gone.Nodup) (tree : Tree) :
    (tree.prune gone).parts = tree.parts.filterMap (Part.pruned? gone) := by
  cases tree with
  | leaf token => rfl
  | node kind children =>
    have hrest := partsFrom_pruneOf h 0 children
    rw [Path.shift_zero] at hrest
    rw [parts, List.filterMap_cons, ← hrest]
    rfl

lemma partsFrom_pruneOf {gone : List Path} (h : gone.Nodup) (i : Nat) (trees : List Tree) :
    partsFrom (i - Path.shift gone i) (pruneOf gone i trees) =
      (partsFrom i trees).filterMap (Part.pruned? gone) := by
  cases trees with
  | nil => rfl
  | cons tree rest =>
    have hrest := partsFrom_pruneOf h (i + 1) rest
    have hle := Path.shift_le h i
    rw [Path.shift_succ h] at hrest
    rw [pruneOf, List.contains_eq_mem, partsFrom, List.filterMap_append, List.filterMap_map]
    by_cases hi : [i] ∈ gone
    · have hindex : i + 1 - (Path.shift gone i + 1) = i - Path.shift gone i := by omega
      simp only [hi, if_true, hindex] at hrest
      simp [hi, ← hrest, pruned?_under_of_mem hi]
    · have hindex : i + 1 - Path.shift gone i = i - Path.shift gone i + 1 := by omega
      simp only [hi, if_false, Nat.add_zero, hindex] at hrest
      simp only [hi, decide_false, Bool.false_eq_true, if_false, partsFrom]
      rw [hrest, parts_prune (Path.nodup_below h i) tree, List.map_filterMap]
      congr 2
      funext part
      exact (pruned?_under hi part).symm

end

end Tree

end SwiftTidy

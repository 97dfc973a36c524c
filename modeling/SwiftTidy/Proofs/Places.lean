import SwiftTidy.Syntax.Edit
import Mathlib.Data.List.Infix
import Mathlib.Order.Basic

/-!
# Places in a tree

The slots of a tree stand in the order of their paths, and the part at a path takes up a stretch of them. What
stands around a place is what comes before and after this stretch (`Tree.exists_around`). The tokens of a tree
with their places are its leaves.
-/

namespace SwiftTidy

/-! ## The order of paths -/

namespace Path

/-- One path parts from another to the left of it, so that neither leads into the other. -/
def Precedes : Path → Path → Prop
  | i :: p, j :: q => i < j ∨ i = j ∧ Precedes p q
  | _, _ => False

@[simp] lemma not_precedes_nil (p : Path) : ¬ Precedes p [] := by
  cases p <;> simp [Precedes]

@[simp] lemma not_nil_precedes (p : Path) : ¬ Precedes [] p := by
  cases p <;> simp [Precedes]

variable {p q : Path}

@[simp] lemma cons_precedes_cons {i j : Nat} : Precedes (i :: p) (j :: q) ↔ i < j ∨ i = j ∧ Precedes p q := Iff.rfl

@[simp] lemma append_precedes_append {c : Path} : Precedes (c ++ p) (c ++ q) ↔ Precedes p q := by
  induction c with
  | nil => rfl
  | cons i c ih => simp [ih]

lemma Precedes.append (h : Precedes p q) (a b : Path) : Precedes (p ++ a) (q ++ b) := by
  induction p generalizing q with
  | nil => simp at h
  | cons i p ih =>
    cases q with
    | nil => simp at h
    | cons j q =>
      rcases h with hlt | ⟨rfl, hpq⟩
      · exact Or.inl hlt
      · exact Or.inr ⟨rfl, ih hpq⟩

lemma Precedes.irrefl (p : Path) : ¬ Precedes p p := by
  induction p with
  | nil => simp
  | cons i p ih => simp [ih]

lemma Precedes.asymm (h : Precedes p q) : ¬ Precedes q p := by
  induction p generalizing q with
  | nil => simp
  | cons i p ih =>
    cases q with
    | nil => simp at h
    | cons j q =>
      rcases h with hlt | ⟨rfl, hpq⟩
      · simp only [cons_precedes_cons, not_or, not_and]
        omega
      · simpa using ih hpq

lemma Precedes.trans {r : Path} (hpq : Precedes p q) (hqr : Precedes q r) : Precedes p r := by
  induction p generalizing q r with
  | nil => simp at hpq
  | cons i p ih =>
    cases q with
    | nil => simp at hpq
    | cons j q =>
      cases r with
      | nil => simp at hqr
      | cons k r =>
        rcases hpq with hij | ⟨rfl, hpq⟩
        · rcases hqr with hjk | ⟨rfl, _⟩
          · exact Or.inl (hij.trans hjk)
          · exact Or.inl hij
        · rcases hqr with hjk | ⟨rfl, hqr⟩
          · exact Or.inl hjk
          · exact Or.inr ⟨rfl, ih hpq hqr⟩

lemma Precedes.apart (h : Precedes p q) : ¬ p <+: q ∧ ¬ q <+: p := by
  constructor
  · rintro ⟨r, rfl⟩
    have := (append_precedes_append (c := p) (p := []) (q := r)).1 (by simpa using h)
    simp at this
  · rintro ⟨r, rfl⟩
    have := (append_precedes_append (c := q) (p := r) (q := [])).1 (by simpa using h)
    simp at this

lemma precedes_total (p q : Path) : Precedes p q ∨ Precedes q p ∨ p <+: q ∨ q <+: p := by
  induction p generalizing q with
  | nil => simp
  | cons i p ih =>
    cases q with
    | nil => simp
    | cons j q =>
      rcases Nat.lt_trichotomy i j with hlt | rfl | hgt
      · exact Or.inl (Or.inl hlt)
      · simpa [List.cons_prefix_cons] using ih q
      · exact Or.inr (Or.inl (Or.inl hgt))

lemma not_precedes_replicate (p : Path) (n : Nat) : ¬ Precedes p (List.replicate n 0) := by
  induction n generalizing p with
  | zero => simp
  | succ n ih =>
    cases p with
    | nil => simp
    | cons i p =>
      rw [List.replicate_succ, cons_precedes_cons]
      rintro (h | ⟨-, h⟩)
      · omega
      · exact ih p h

instance decidablePrecedes : (p q : Path) → Decidable (Precedes p q)
  | i :: p, j :: q =>
    have := decidablePrecedes p q
    inferInstanceAs (Decidable (i < j ∨ i = j ∧ Precedes p q))
  | [], q => .isFalse (not_nil_precedes q)
  | p, [] => .isFalse (not_precedes_nil p)

end Path

/-! ## Slots and tokens further down -/

namespace Slot

/-- Where the slot is in the tree. -/
def path (slot : Slot) : Path := slot.up.reverse

/-- A slot of the part at a path, seen from the root. -/
def under (path : Path) (slot : Slot) : Slot := ⟨slot.up ++ path.reverse, slot.token?⟩

@[simp] lemma path_under (p : Path) (slot : Slot) : (slot.under p).path = p ++ slot.path := by
  simp [under, path]

@[simp] lemma token?_under (p : Path) (slot : Slot) : (slot.under p).token? = slot.token? := rfl

@[simp] lemma under_nil : Slot.under [] = id := by
  funext slot
  simp [under]

@[simp] lemma under_under (p q : Path) (slot : Slot) : (slot.under q).under p = slot.under (p ++ q) := by
  simp [under]

end Slot

namespace Placed

/-- A token of the part at a path, seen from the root. -/
def under (path : Path) (placed : Placed) : Placed := ⟨placed.up ++ path.reverse, placed.token⟩

@[simp] lemma path_under (p : Path) (placed : Placed) : (placed.under p).path = p ++ placed.path := by
  simp [under, path]

@[simp] lemma token_under (p : Path) (placed : Placed) : (placed.under p).token = placed.token := rfl

@[simp] lemma path_mk (p : Path) (token : Token) : (Placed.mk p.reverse token).path = p := by
  simp [path]

lemma ext_path {a b : Placed} (hp : a.path = b.path) (ht : a.token = b.token) : a = b := by
  cases a
  cases b
  simp_all [path]

@[simp] lemma mk_path_reverse (placed : Placed) : Placed.mk placed.path.reverse placed.token = placed := by
  simp [path]

end Placed

lemma Slot.placed?_under (p : Path) (slot : Slot) :
    (slot.under p).placed? = slot.placed?.map (Placed.under p) := by
  cases h : slot.token? <;> simp [placed?, h, under, Placed.under]

lemma Slot.path_of_placed? {slot : Slot} {placed : Placed} (h : slot.placed? = some placed) :
    placed.path = slot.path := by
  cases ht : slot.token? with
  | none => simp [placed?, ht] at h
  | some token =>
    simp only [placed?, ht, Option.map_some, Option.some.injEq] at h
    simp [← h, Placed.path, path]

namespace Tree

/-- The slots of several children in a row, the first of which is number `i`. -/
def slotsFrom (i : Nat) : List Tree → List Slot
  | [] => []
  | tree :: rest => tree.slots.map (Slot.under [i]) ++ slotsFrom (i + 1) rest

mutual

lemma slotsOnto_eq (up : List Nat) (tree : Tree) (tail : List Slot) :
    tree.slotsOnto up tail = tree.slots.map (Slot.under up.reverse) ++ tail := by
  cases tree with
  | leaf token => simp [slots, slotsOnto, Slot.under]
  | node kind children =>
    cases children with
    | nil => simp [slots, slotsOnto, Slot.under]
    | cons child rest =>
      rw [slots, slotsOnto, slotsOnto, slotsOfOnto_eq up, slotsOfOnto_eq []]
      simp

lemma slotsOfOnto_eq (up : List Nat) (i : Nat) (trees : List Tree) (tail : List Slot) :
    slotsOfOnto up i trees tail = (slotsFrom i trees).map (Slot.under up.reverse) ++ tail := by
  cases trees with
  | nil => simp [slotsOfOnto, slotsFrom]
  | cons tree rest =>
    rw [slotsOfOnto, slotsOnto_eq, slotsOfOnto_eq, slotsFrom]
    simp [Function.comp_def]

end

@[simp] lemma slots_leaf (token : Token) : (Tree.leaf token).slots = [⟨[], some token⟩] := rfl

@[simp] lemma slots_node_nil (kind : Kind) : (Tree.node kind []).slots = [⟨[], none⟩] := rfl

variable {children trees : List Tree} {i j : Nat} {p : Path} {row : List Slot} {slot : Slot} {tree part : Tree}

lemma slots_node (kind : Kind) (h : children ≠ []) : (Tree.node kind children).slots = slotsFrom 0 children := by
  cases children with
  | nil => simp at h
  | cons child rest =>
    rw [slots, slotsOnto, slotsOfOnto_eq]
    simp

lemma slotsFrom_append (i : Nat) (front back : List Tree) :
    slotsFrom i (front ++ back) = slotsFrom i front ++ slotsFrom (i + front.length) back := by
  induction front generalizing i with
  | nil => simp [slotsFrom]
  | cons tree rest ih =>
    have hindex : i + 1 + rest.length = i + (rest.length + 1) := by omega
    simp [slotsFrom, ih, hindex]

mutual

lemma slotCount_eq (tree : Tree) : tree.slotCount = tree.slots.length := by
  cases tree with
  | leaf token => rfl
  | node kind children =>
    cases children with
    | nil => rfl
    | cons child rest => rw [slotCount, slotCountOf_eq 0, slots_node kind (by simp)]

lemma slotCountOf_eq (i : Nat) (trees : List Tree) : slotCountOf trees = (slotsFrom i trees).length := by
  cases trees with
  | nil => rfl
  | cons tree rest => simp [slotCountOf, slotsFrom, slotCount_eq tree, slotCountOf_eq (i + 1) rest]

end

/-! ## Parts and what stands around them -/

@[simp] lemma sub?_nil (tree : Tree) : tree.sub? [] = some tree := by
  cases tree <;> rfl

lemma sub?_node_cons (kind : Kind) (children : List Tree) (i : Nat) (p : Path) :
    (Tree.node kind children).sub? (i :: p) = (children[i]?).bind fun child => child.sub? p := by
  rw [sub?]
  cases children[i]? <;> rfl

lemma exists_child_of_sub?_cons (h : tree.sub? (i :: p) = some part) :
    ∃ kind children child, tree = .node kind children ∧ children[i]? = some child ∧
      child.sub? p = some part := by
  cases tree with
  | leaf token => simp [sub?] at h
  | node kind children =>
    rw [sub?_node_cons, Option.bind_eq_some_iff] at h
    obtain ⟨child, hchild, hpart⟩ := h
    exact ⟨kind, children, child, rfl, hchild, hpart⟩

lemma exists_append_of_getElem? {child : Tree} (h : children[i]? = some child) :
    ∃ front back, children = front ++ child :: back ∧ i = front.length := by
  obtain ⟨hi, rfl⟩ := List.getElem?_eq_some_iff.1 h
  refine ⟨children.take i, children.drop (i + 1), ?_, by simp; omega⟩
  rw [← List.drop_eq_getElem_cons hi, List.take_append_drop]

lemma sub?_node_length {kind : Kind} {front back : List Tree} {child : Tree} :
    (Tree.node kind (front ++ child :: back)).sub? (front.length :: p) = child.sub? p := by
  simp [sub?_node_cons]

/-- A tree is built up around each part of it. -/
@[elab_as_elim]
lemma sub?_induction {motive : ∀ p tree, sub? tree p = some part → Prop} (here : motive [] part (sub?_nil part))
    (inside : ∀ kind front child back p h, motive p child h →
      motive (front.length :: p) (.node kind (front ++ child :: back)) (sub?_node_length.trans h))
    (p : Path) (tree : Tree) (h : tree.sub? p = some part) : motive p tree h := by
  induction p generalizing tree with
  | nil =>
    obtain rfl : tree = part := by simpa using h
    exact here
  | cons i p ih =>
    obtain ⟨kind, children, child, rfl, hchild, hpart⟩ := exists_child_of_sub?_cons h
    obtain ⟨front, back, rfl, rfl⟩ := exists_append_of_getElem? hchild
    exact inside kind front child back p hpart (ih child hpart)

@[simp] lemma replaceAt_node_length (kind : Kind) (front back : List Tree) (child new : Tree) (p : Path) :
    (Tree.node kind (front ++ child :: back)).replaceAt (front.length :: p) new =
      .node kind (front ++ child.replaceAt p new :: back) := by
  rw [replaceAt]
  congr 1
  induction front with
  | nil => rfl
  | cons first front ih => simp [ih]

lemma replaceAt_self (h : tree.sub? p = some part) : tree.replaceAt p part = tree := by
  induction p, tree, h using sub?_induction with
  | here => rfl
  | inside kind front child back p h ih => rw [replaceAt_node_length, ih]

lemma sub?_replaceAt_self (new : Tree) (h : tree.sub? p = some part) : (tree.replaceAt p new).sub? p = some new := by
  induction p, tree, h using sub?_induction with
  | here => exact sub?_nil new
  | inside kind front child back p h ih => rw [replaceAt_node_length, sub?_node_length, ih]

lemma sub?_append (tree : Tree) (p q : Path) :
    tree.sub? (p ++ q) = (tree.sub? p).bind fun part => part.sub? q := by
  induction p generalizing tree with
  | nil => simp
  | cons i p ih =>
    cases tree with
    | leaf token => rfl
    | node kind children =>
      rw [List.cons_append, sub?_node_cons, sub?_node_cons, Option.bind_assoc]
      congr 1
      funext child
      exact ih child

lemma sub?_append_some (h : tree.sub? p = some part) (q : Path) : tree.sub? (p ++ q) = part.sub? q := by
  rw [sub?_append, h, Option.bind_some]

lemma exists_sub?_of_mem (tree : Tree) {child : Tree} (h : child ∈ tree.children) :
    ∃ i, tree.sub? [i] = some child := by
  cases tree with
  | leaf token => simp [Tree.children] at h
  | node kind children =>
    obtain ⟨front, back, rfl⟩ := List.append_of_mem h
    exact ⟨front.length, by simp [sub?_node_length]⟩

lemma sub?_node_cases {kind : Kind} (h : (Tree.node kind children).sub? p = some part) :
    part = .node kind children ∨ ∃ child ∈ children, ∃ q, child.sub? q = some part := by
  cases p with
  | nil => exact .inl (Option.some.inj h).symm
  | cons i p =>
    rw [sub?_node_cons, Option.bind_eq_some_iff] at h
    obtain ⟨child, hchild, hpart⟩ := h
    exact .inr ⟨child, List.mem_of_getElem? hchild, p, hpart⟩

lemma exists_node_of_isNode (h : tree.isNode = true) : ∃ kind children, tree = .node kind children := by
  cases tree with
  | leaf token => simp [isNode] at h
  | node kind children => exact ⟨kind, children, rfl⟩

lemma exists_node_of_kind {kind : Kind} (h : tree.isNode = true) (hkind : tree.kind = kind) :
    ∃ children, tree = .node kind children := by
  obtain ⟨kind, children, rfl⟩ := exists_node_of_isNode h
  exact ⟨children, by rw [← hkind]; rfl⟩

lemma sub?_concat (tree : Tree) (p : Path) (i : Nat) :
    tree.sub? (p ++ [i]) = (tree.sub? p).bind fun part => part.children[i]? := by
  rw [sub?_append]
  congr
  funext part
  cases part with
  | leaf token => simp [sub?, children]
  | node kind children => simp [sub?_node_cons, Tree.children]

lemma exists_owner_of_concat (h : tree.sub? (p ++ [i]) = some part) :
    ∃ kind children, tree.sub? p = some (.node kind children) ∧ children[i]? = some part := by
  rw [sub?_concat, Option.bind_eq_some_iff] at h
  obtain ⟨owner, howner, hchild⟩ := h
  cases owner with
  | leaf token => simp [Tree.children] at hchild
  | node kind children => exact ⟨kind, children, howner, hchild⟩

lemma sizeOf_lt_of_mem (kind : Kind) {child : Tree} (h : child ∈ children) :
    sizeOf child < sizeOf (Tree.node kind children) := by
  have := List.sizeOf_lt_of_mem h
  simp only [Tree.node.sizeOf_spec]
  omega

lemma precedes_of_mem_slotsFrom (h : slot ∈ slotsFrom i trees) (hj : i + trees.length ≤ j) (p : Path) :
    Path.Precedes slot.path (j :: p) := by
  induction trees generalizing i with
  | nil => simp [slotsFrom] at h
  | cons tree rest ih =>
    simp only [slotsFrom, List.mem_append, List.mem_map] at h
    simp only [List.length_cons] at hj
    rcases h with ⟨inner, -, rfl⟩ | h
    · rw [Slot.path_under]
      exact Or.inl (by omega)
    · exact ih h (by omega)

lemma precedes_slotsFrom (h : slot ∈ slotsFrom i trees) (hj : j < i) (p : Path) : Path.Precedes (j :: p) slot.path := by
  induction trees generalizing i with
  | nil => simp [slotsFrom] at h
  | cons tree rest ih =>
    simp only [slotsFrom, List.mem_append, List.mem_map] at h
    rcases h with ⟨inner, -, rfl⟩ | h
    · rw [Slot.path_under]
      exact Or.inl hj
    · exact ih h (by omega)

/-- The slots before and behind a part stay where another tree takes its place. -/
lemma exists_slots_replaceAt (h : tree.sub? p = some part) :
    ∃ before after, (∀ new : Tree, (tree.replaceAt p new).slots = before ++ new.slots.map (Slot.under p) ++ after) ∧
      before.length = tree.slotIndex p ∧ (∀ slot ∈ before, Path.Precedes slot.path p) ∧
      ∀ slot ∈ after, Path.Precedes p slot.path := by
  induction p, tree, h using sub?_induction with
  | here => exact ⟨[], [], fun new => by simp [replaceAt], by simp [slotIndex], by simp, by simp⟩
  | inside kind front child back p h ih =>
    obtain ⟨before, after, hslots, hindex, hbefore, hafter⟩ := ih
    refine ⟨slotsFrom 0 front ++ before.map (Slot.under [front.length]),
      after.map (Slot.under [front.length]) ++ slotsFrom (front.length + 1) back, fun new => ?_, ?_, ?_, ?_⟩
    · rw [replaceAt_node_length, slots_node kind (by simp), slotsFrom_append, slotsFrom, Nat.zero_add, hslots]
      simp [Function.comp_def]
    · simp [slotIndex, hindex, slotCountOf_eq 0]
    · intro slot hslot
      rw [List.mem_append, List.mem_map] at hslot
      rcases hslot with hslot | ⟨inner, hinner, rfl⟩
      · exact precedes_of_mem_slotsFrom hslot (by omega) p
      · simpa using hbefore inner hinner
    · intro slot hslot
      rw [List.mem_append, List.mem_map] at hslot
      rcases hslot with ⟨inner, hinner, rfl⟩ | hslot
      · simpa using hafter inner hinner
      · exact precedes_slotsFrom hslot (by omega) p

lemma exists_slots_split (h : tree.sub? p = some part) :
    ∃ before after, tree.slots = before ++ part.slots.map (Slot.under p) ++ after ∧
      before.length = tree.slotIndex p ∧ (∀ slot ∈ before, Path.Precedes slot.path p) ∧
      ∀ slot ∈ after, Path.Precedes p slot.path := by
  obtain ⟨before, after, hslots, hrest⟩ := exists_slots_replaceAt h
  exact ⟨before, after, replaceAt_self h ▸ hslots part, hrest⟩

/-- What stands around a part is what comes before and after its slots. -/
lemma exists_around (h : tree.sub? p = some part) :
    ∃ before after, tree.slots = before ++ part.slots.map (Slot.under p) ++ after ∧
      tree.around p = ⟨before.reverse, after⟩ ∧ tree.slotsAt p = part.slots.map (Slot.under p) ∧
      (∀ slot ∈ before, Path.Precedes slot.path p) ∧ ∀ slot ∈ after, Path.Precedes p slot.path := by
  obtain ⟨before, after, hslots, hindex, hbefore, hafter⟩ := exists_slots_split h
  have hstop : tree.slotStop p = (before ++ part.slots.map (Slot.under p)).length := by
    simp [slotStop, h, slotCount_eq, hindex]
  refine ⟨before, after, hslots, ?_, ?_, hbefore, hafter⟩
  · rw [around, hstop, ← hindex, hslots]
    simp [List.append_assoc]
  · rw [slotsAt, hstop, ← hindex, hslots, List.take_left']
    · simp
    · rfl

lemma filter_of_ahead (h : ∀ slot ∈ row, Path.Precedes slot.path p) :
    (row.filter fun slot => Path.Precedes slot.path p) = row ∧ (row.filter fun slot => Path.Precedes p slot.path) = [] := by
  refine ⟨List.filter_eq_self.2 (by simpa using h), List.filter_eq_nil_iff.2 fun slot hslot => ?_⟩
  simpa using (h slot hslot).asymm

lemma filter_of_behind (h : ∀ slot ∈ row, Path.Precedes p slot.path) :
    (row.filter fun slot => Path.Precedes slot.path p) = [] ∧ (row.filter fun slot => Path.Precedes p slot.path) = row := by
  refine ⟨List.filter_eq_nil_iff.2 fun slot hslot => ?_, List.filter_eq_self.2 (by simpa using h)⟩
  simpa using (h slot hslot).asymm

/-- What stands around a part are the slots on either side of it. -/
lemma around_eq_filter (h : tree.sub? p = some part) :
    tree.around p = ⟨(tree.slots.filter fun slot => Path.Precedes slot.path p).reverse,
      tree.slots.filter fun slot => Path.Precedes p slot.path⟩ := by
  obtain ⟨before, after, hslots, haround, -, hbefore, hafter⟩ := exists_around h
  have hinside : ∀ slot ∈ part.slots.map (Slot.under p),
      ¬ Path.Precedes slot.path p ∧ ¬ Path.Precedes p slot.path := by
    intro slot hslot
    obtain ⟨inner, -, rfl⟩ := List.mem_map.1 hslot
    rw [Slot.path_under]
    exact ⟨fun h => h.apart.2 (List.prefix_append _ _), fun h => h.apart.1 (List.prefix_append _ _)⟩
  have hleft : ((part.slots.map (Slot.under p)).filter fun slot => Path.Precedes slot.path p) = [] :=
    List.filter_eq_nil_iff.2 fun slot hslot => by simpa using (hinside slot hslot).1
  have hright : ((part.slots.map (Slot.under p)).filter fun slot => Path.Precedes p slot.path) = [] :=
    List.filter_eq_nil_iff.2 fun slot hslot => by simpa using (hinside slot hslot).2
  rw [haround, hslots]
  simp only [List.filter_append, hleft, hright, filter_of_ahead hbefore, filter_of_behind hafter, List.append_nil,
    List.nil_append]

mutual

lemma pairwise_slots (tree : Tree) :
    tree.slots.Pairwise fun a b => Path.Precedes a.path b.path := by
  cases tree with
  | leaf token => simp
  | node kind children =>
    by_cases hne : children = []
    · subst hne
      simp
    · rw [slots_node kind hne]
      exact pairwise_slotsFrom 0 children

lemma pairwise_slotsFrom (i : Nat) (trees : List Tree) :
    (slotsFrom i trees).Pairwise fun a b => Path.Precedes a.path b.path := by
  cases trees with
  | nil => simp [slotsFrom]
  | cons tree rest =>
    rw [slotsFrom, List.pairwise_append, List.pairwise_map]
    refine ⟨?_, pairwise_slotsFrom (i + 1) rest, ?_⟩
    · simpa using pairwise_slots tree
    · intro a ha b hb
      rw [List.mem_map] at ha
      obtain ⟨inner, -, rfl⟩ := ha
      rw [Slot.path_under]
      exact precedes_slotsFrom hb (by omega) _

end

/-! ## Tokens with their places -/

/-- The tokens of several children in a row, the first of which is number `i`, with their places. -/
def placedFrom (i : Nat) : List Tree → List Placed
  | [] => []
  | tree :: rest => tree.placedTokens.map (Placed.under [i]) ++ placedFrom (i + 1) rest

lemma filterMap_placed?_slotsFrom (i : Nat) (trees : List Tree) :
    (slotsFrom i trees).filterMap Slot.placed? = placedFrom i trees := by
  induction trees generalizing i with
  | nil => rfl
  | cons tree rest ih =>
    rw [slotsFrom, List.filterMap_append, ih, placedFrom, placedTokens, List.filterMap_map,
      List.map_filterMap]
    congr 2
    funext slot
    exact Slot.placed?_under [i] slot

@[simp] lemma placedTokens_leaf (token : Token) : (Tree.leaf token).placedTokens = [⟨[], token⟩] := rfl

@[simp] lemma placedTokens_node (kind : Kind) (children : List Tree) :
    (Tree.node kind children).placedTokens = placedFrom 0 children := by
  cases children with
  | nil => rfl
  | cons child rest =>
    rw [placedTokens, slots_node kind (by simp), filterMap_placed?_slotsFrom]

mutual

lemma map_token_placedTokens (tree : Tree) : tree.placedTokens.map Placed.token = tree.leaves := by
  cases tree with
  | leaf token => rfl
  | node kind children => rw [placedTokens_node, map_token_placedFrom, leaves_node]

lemma map_token_placedFrom (i : Nat) (trees : List Tree) :
    (placedFrom i trees).map Placed.token = leavesOf trees := by
  cases trees with
  | nil => rfl
  | cons tree rest =>
    rw [placedFrom, List.map_append, map_token_placedFrom (i + 1) rest, leavesOf_cons,
      ← map_token_placedTokens tree]
    simp [Function.comp_def]

end

lemma pairwise_placedTokens (tree : Tree) :
    tree.placedTokens.Pairwise fun a b => Path.Precedes a.path b.path := by
  refine (pairwise_slots tree).filterMap _ ?_
  intro a b hab x hx y hy
  rwa [Slot.path_of_placed? hx, Slot.path_of_placed? hy]

/-- The tokens around a part are those on either side of it. -/
lemma filterMap_around (h : tree.sub? p = some part) :
    (tree.around p).before.filterMap Slot.placed? = (tree.placedTokens.filter (Path.Precedes ·.path p)).reverse ∧
      (tree.around p).after.filterMap Slot.placed? = tree.placedTokens.filter (Path.Precedes p ·.path) := by
  have hrow : ∀ c : Path → Bool, (tree.slots.filter fun slot => c slot.path).filterMap Slot.placed? =
      tree.placedTokens.filter fun placed => c placed.path := by
    intro c
    rw [placedTokens, List.filter_filterMap, List.filterMap_filter]
    congr 1
    funext slot
    cases hplaced : slot.placed? with
    | none => simp
    | some placed => simp [Option.filter_some, Slot.path_of_placed? hplaced]
  rw [around_eq_filter h, List.filterMap_reverse]
  exact ⟨congrArg List.reverse (hrow (Path.Precedes · p)), hrow (Path.Precedes p ·)⟩

mutual

lemma sub?_of_mem_placedTokens {tree : Tree} {placed : Placed} (h : placed ∈ tree.placedTokens) :
    tree.sub? placed.path = some (.leaf placed.token) := by
  cases tree with
  | leaf token =>
    simp only [placedTokens_leaf, List.mem_singleton] at h
    simp [h, Placed.path]
  | node kind children =>
    rw [placedTokens_node] at h
    obtain ⟨i, child, p, hchild, hp, hsub⟩ := sub?_of_mem_placedFrom h
    rw [hp, sub?_node_cons, Nat.zero_add, hchild]
    exact hsub

lemma sub?_of_mem_placedFrom {k : Nat} {trees : List Tree} {placed : Placed}
    (h : placed ∈ placedFrom k trees) :
    ∃ i child p, trees[i]? = some child ∧ placed.path = (k + i) :: p ∧
      child.sub? p = some (.leaf placed.token) := by
  cases trees with
  | nil => simp [placedFrom] at h
  | cons tree rest =>
    rw [placedFrom, List.mem_append, List.mem_map] at h
    rcases h with ⟨inner, hinner, rfl⟩ | h
    · exact ⟨0, tree, inner.path, rfl, by simp, by simpa using sub?_of_mem_placedTokens hinner⟩
    · obtain ⟨i, child, p, hchild, hp, hsub⟩ := sub?_of_mem_placedFrom h
      have hindex : k + 1 + i = k + (i + 1) := by omega
      exact ⟨i + 1, child, p, by simpa using hchild, by rw [hp, hindex], hsub⟩

end

lemma mem_placedTokens_of_sub? {token : Token} (h : tree.sub? p = some (.leaf token)) :
    Placed.mk p.reverse token ∈ tree.placedTokens := by
  obtain ⟨before, after, hslots, -⟩ := exists_slots_split h
  rw [placedTokens, hslots]
  simp [Slot.under, Slot.placed?]

end Tree

end SwiftTidy

import SwiftTidy.Proofs.Settling
import SwiftTidy.Proofs.Skeleton

/-!
# Sites and trivia

No rule looks at trivia when it decides what a site is: a tree has sites exactly if the tree without its trivia has
some.
-/

namespace SwiftTidy

namespace Tree

mutual

lemma trims_bare (tree : Tree) : tree.Trims tree.bare := by
  cases tree with
  | leaf token => rw [bare, Trims]
  | node kind children => exact trims_node.2 ⟨bareOf children, by rw [bare], trimsOf_bareOf kind children⟩

lemma trimsOf_bareOf (owner : Kind) (trees : List Tree) : TrimsOf owner trees (bareOf trees) := by
  cases trees with
  | nil => rw [bareOf, TrimsOf]
  | cons tree rest =>
    rw [TrimsOf]
    cases tree with
    | leaf token =>
      rw [bareOf_leaf_cons]
      split
      · next htrivia => exact .inr ⟨htrivia, trimsOf_bareOf owner rest⟩
      · exact .inl ⟨_, _, rfl, trims_leaf.2 rfl, trimsOf_bareOf owner rest⟩
    | node kind children =>
      rw [bareOf_node_cons]
      exact .inl ⟨_, _, rfl, bare_node kind children ▸ trims_bare (.node kind children), trimsOf_bareOf owner rest⟩

end

/-! ## Places of nodes -/

variable {kind : Kind} {tree : Tree} {trees children laters : List Tree}

lemma exists_getElem?_bareOf {i : Nat} (h : trees[i]? = some (Tree.node kind children)) :
    ∃ j : Nat, (bareOf trees)[j]? = some (Tree.node kind (bareOf children)) := by
  induction trees generalizing i with
  | nil => simp at h
  | cons tree rest ih =>
    cases i with
    | zero =>
      obtain rfl : tree = .node kind children := by simpa using h
      exact ⟨0, by simp⟩
    | succ i =>
      obtain ⟨j, hj⟩ := ih (by simpa using h)
      cases tree with
      | leaf token =>
        rw [bareOf_leaf_cons]
        split
        · exact ⟨j, hj⟩
        · exact ⟨j + 1, by simpa using hj⟩
      | node other others => exact ⟨j + 1, by simpa using hj⟩

lemma exists_getElem?_of_bareOf {j : Nat} (h : (bareOf trees)[j]? = some (Tree.node kind laters)) :
    ∃ (i : Nat) (children : List Tree), trees[i]? = some (Tree.node kind children) ∧ laters = bareOf children := by
  induction trees generalizing j with
  | nil => simp at h
  | cons tree rest ih =>
    cases tree with
    | leaf token =>
      rw [bareOf_leaf_cons] at h
      split at h
      · obtain ⟨i, children, hi, hlaters⟩ := ih h
        exact ⟨i + 1, children, by simpa using hi, hlaters⟩
      · cases j with
        | zero => simp at h
        | succ j =>
          obtain ⟨i, children, hi, hlaters⟩ := ih (j := j) (by simpa using h)
          exact ⟨i + 1, children, by simpa using hi, hlaters⟩
    | node other others =>
      rw [bareOf_node_cons] at h
      cases j with
      | zero =>
        simp only [List.getElem?_cons_zero, Option.some.injEq, node.injEq] at h
        obtain ⟨rfl, rfl⟩ := h
        exact ⟨0, others, rfl, rfl⟩
      | succ j =>
        obtain ⟨i, children, hi, hlaters⟩ := ih (j := j) (by simpa using h)
        exact ⟨i + 1, children, by simpa using hi, hlaters⟩

lemma ownerKind?_cons (kind : Kind) (children : List Tree) (i : Nat) (r : Path) :
    (Tree.node kind children).ownerKind? (i :: r) =
      if r.length = 0 then some kind else children[i]?.bind fun child => child.ownerKind? r := by
  cases r with
  | nil => simp [ownerKind?, Tree.kind]
  | cons j r => simp [ownerKind?, sub?_node_cons, Option.map_bind]

/-- Every node is found again without its trivia, in the same surroundings. -/
lemma exists_sub?_bare {q : Path} (h : tree.sub? q = some (.node kind children)) :
    ∃ q', tree.bare.sub? q' = some (.node kind (bareOf children)) ∧ q'.length = q.length ∧
      tree.bare.ownerKind? q' = tree.ownerKind? q := by
  induction q generalizing tree with
  | nil =>
    obtain rfl : tree = .node kind children := by simpa using h
    exact ⟨[], by simp, rfl, rfl⟩
  | cons i r ih =>
    cases tree with
    | leaf token => simp [sub?] at h
    | node owner row =>
      rw [sub?_node_cons, Option.bind_eq_some_iff] at h
      obtain ⟨child, hchild, hsub⟩ := h
      cases child with
      | leaf token => cases r <;> simp [sub?] at hsub
      | node k cs =>
        obtain ⟨j, hj⟩ := exists_getElem?_bareOf hchild
        obtain ⟨q', hq', hlength, howner⟩ := ih hsub
        rw [bare_node] at hq' howner
        refine ⟨j :: q', by rw [bare_node, sub?_node_cons, hj]; exact hq', by simp [hlength], ?_⟩
        rw [bare_node, ownerKind?_cons, ownerKind?_cons, hj, hchild, hlength, Option.bind_some, Option.bind_some, howner]

/-- Every node that is left without trivia comes from one with the same surroundings. -/
lemma exists_sub?_of_bare {q' : Path} (h : tree.bare.sub? q' = some (.node kind laters)) :
    ∃ q children, tree.sub? q = some (.node kind children) ∧ laters = bareOf children ∧ q.length = q'.length ∧
      tree.ownerKind? q = tree.bare.ownerKind? q' := by
  induction q' generalizing tree with
  | nil =>
    cases tree with
    | leaf token => simp [bare] at h
    | node k cs =>
      simp only [bare_node, sub?_nil, Option.some.injEq, node.injEq] at h
      obtain ⟨rfl, rfl⟩ := h
      exact ⟨[], cs, by simp, rfl, rfl, rfl⟩
  | cons j r ih =>
    cases tree with
    | leaf token => simp [bare, sub?] at h
    | node owner row =>
      rw [bare_node, sub?_node_cons, Option.bind_eq_some_iff] at h
      obtain ⟨later, hlater, hsub⟩ := h
      cases later with
      | leaf token => cases r <;> simp [sub?] at hsub
      | node k ls =>
        obtain ⟨i, cs, hi, rfl⟩ := exists_getElem?_of_bareOf hlater
        rw [← bare_node] at hsub
        obtain ⟨q, children, hq, hlaters, hlength, howner⟩ := ih hsub
        rw [bare_node] at howner
        refine ⟨i :: q, children, by rw [sub?_node_cons, hi]; exact hq, hlaters, by simp [hlength], ?_⟩
        rw [bare_node, ownerKind?_cons, ownerKind?_cons, hi, hlater, hlength, Option.bind_some, Option.bind_some, howner]

end Tree

open SwiftTidy.Tree Rules

namespace Rule

variable {rule : Rule} {tree : Tree} (hrule : rule.IsBuiltin) (hshaped : tree.Shaped)

include hrule hshaped

lemma exists_hasSite_bare : (∃ q, rule.HasSite tree.bare q) ↔ ∃ q, rule.HasSite tree q := by
  have hshaped' : tree.bare.Shaped := (trims_bare tree).shaped hshaped
  constructor
  · rintro ⟨q', hsite⟩
    obtain ⟨kind, laters, hlater, -⟩ := kind_of_hasSite hrule hshaped' hsite
    obtain ⟨q, children, hpart, rfl, -, howner⟩ := exists_sub?_of_bare hlater
    rw [← bare_node] at hlater
    exact ⟨q, (hasSite_of_echo hrule hshaped hshaped' hpart hlater (trims_bare _).echo howner.symm).1 hsite⟩
  · rintro ⟨q, hsite⟩
    obtain ⟨kind, children, hpart, -⟩ := kind_of_hasSite hrule hshaped hsite
    obtain ⟨q', hlater, -, howner⟩ := exists_sub?_bare hpart
    rw [← bare_node] at hlater
    exact ⟨q', (hasSite_of_echo hrule hshaped hshaped' hpart hlater (trims_bare _).echo howner).2 hsite⟩

lemma sites_eq_nil_iff : rule.sites tree [] = [] ↔ ¬ ∃ q, rule.HasSite tree q := by
  rw [← List.length_eq_zero_iff, ← length_trail, List.length_eq_zero_iff, List.eq_nil_iff_forall_not_mem, not_exists]
  simp only [mem_trail_nil_iff hrule hshaped]

/-- Of trees that differ in trivia only, both have sites or none. -/
theorem sites_eq_nil_of_bare_eq {later : Tree} (hshaped' : later.Shaped) (hbare : later.bare = tree.bare)
    (h : rule.sites tree [] = []) : rule.sites later [] = [] := by
  rw [sites_eq_nil_iff hrule hshaped] at h
  rwa [sites_eq_nil_iff hrule hshaped', ← exists_hasSite_bare hrule hshaped', hbare, exists_hasSite_bare hrule hshaped]

end Rule

end SwiftTidy

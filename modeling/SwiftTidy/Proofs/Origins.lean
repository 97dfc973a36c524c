import SwiftTidy.Proofs.Descent
import Mathlib.Data.List.Pairwise

/-!
# Where the sites of a corrected tree come from

An edit makes no new sites. What is a site afterwards was one before, at a place that can be told, and no two of them
come from one place (`Rules.Assembled.exists_origin`, `Cleared.exists_origin`). Where a comparison has taken the place
of a chain, its operands have kept what was in them. The comparison itself is no site, and as it binds tightly, neither
are its operands.
-/

namespace SwiftTidy

open SwiftTidy.Tree Rules Rules.Expectation

/-! ## Parts in their places -/

namespace Part

variable {tree : Tree} {part inner : Part}

/-- A part is found in a tree where its path says. -/
def InPlace (tree : Tree) (part : Part) : Prop := tree.sub? part.path = some part.tree

lemma inPlace_of_part? {path : Path} (h : tree.part? path = some part) : part.path = path ∧ part.InPlace tree := by
  obtain ⟨inner, hinner, rfl⟩ := Option.map_eq_some_iff.1 h
  exact ⟨rfl, hinner⟩

lemma InPlace.child (h : part.InPlace tree) (hchild : inner ∈ part.children) :
    inner.InPlace tree ∧ ∃ i, inner.path = part.path ++ [i] ∧ part.tree.children[i]? = some inner.tree := by
  obtain ⟨i, hi, rfl⟩ := List.mem_mapIdx.1 hchild
  have hat : part.tree.children[i]? = some part.tree.children[i] := List.getElem?_eq_getElem hi
  refine ⟨?_, i, rfl, hat⟩
  rw [InPlace, sub?_concat, h]
  exact hat

end Part

namespace Tree

lemma ownerKind?_append_cons {tree part : Tree} {p : Path} (h : tree.sub? p = some part) (i : Nat) (r : Path) :
    tree.ownerKind? (p ++ i :: r) = part.ownerKind? (i :: r) := by
  have hlast : (p ++ i :: r).dropLast = p ++ (i :: r).dropLast := List.dropLast_append_of_ne_nil (by simp)
  rw [ownerKind?, ownerKind?, hlast, sub?_append, h]
  simp

end Tree

/-! ## Operands -/

namespace Rules

/-- A tree that is put in place of the part at a path consists of parts of this part: `kept` gives places in the new
tree and where what stands there comes from. All other nodes of the new tree are expressions, and calls only where
they are bound tightly. -/
structure Assembled (tree : Tree) (path : Path) (new : Tree) (kept : List (Path × Path)) : Prop where
  inside : ∀ pair ∈ kept, path <+: pair.2
  same : ∀ pair ∈ kept, ∃ part, new.sub? pair.1 = some part ∧ tree.sub? pair.2 = some part
  apart : kept.Pairwise fun a b => ¬ a.2 <+: b.2 ∧ ¬ b.2 <+: a.2
  cases : ∀ s kind children, new.sub? s = some (.node kind children) →
    (∃ pair ∈ kept, ∃ i r, s = pair.1 ++ i :: r) ∨
      kind.isExpression = true ∧ (kind = .callExpr → (new.ownerKind? s).any bindsTightly = true)

/-- A place in the tree with a new part at `path` comes from another one in the tree before. -/
inductive Origin (path : Path) (kept : List (Path × Path)) : Path → Path → Prop where
  | outside {q : Path} : ¬ path <+: q → Origin path kept q q
  | inside {pair : Path × Path} {i : Nat} {r : Path} : pair ∈ kept →
      Origin path kept (path ++ (pair.1 ++ i :: r)) (pair.2 ++ i :: r)

variable {kept : List (Path × Path)}

lemma eq_of_pairwise_apart (h : kept.Pairwise fun a b => ¬ a.2 <+: b.2 ∧ ¬ b.2 <+: a.2) {a b : Path × Path}
    (ha : a ∈ kept) (hb : b ∈ kept) (hab : a.2 <+: b.2) : a = b := by
  by_contra hne
  have : Std.Symm fun a b : Path × Path => ¬ a.2 <+: b.2 ∧ ¬ b.2 <+: a.2 := ⟨fun _ _ h => h.symm⟩
  exact (h.forall ha hb hne).1 hab

/-- No two places come from one. -/
lemma Assembled.origin_injective {tree new : Tree} {path : Path} (h : Assembled tree path new kept) {p q r : Path}
    (hp : Origin path kept p r) (hq : Origin path kept q r) : p = q := by
  cases hp with
  | outside hout =>
    cases hq with
    | outside => rfl
    | inside hpair => exact absurd ((h.inside _ hpair).trans (List.prefix_append _ _)) hout
  | @inside pair i s hpair =>
    generalize hr : pair.2 ++ i :: s = r at hq
    cases hq with
    | outside hout =>
      subst hr
      exact absurd ((h.inside _ hpair).trans (List.prefix_append _ _)) hout
    | @inside pair' j t hpair' =>
      have hsame : pair = pair' := by
        rcases List.prefix_or_prefix_of_prefix (List.prefix_append pair.2 (i :: s))
          (hr ▸ List.prefix_append pair'.2 (j :: t)) with hle | hle
        · exact eq_of_pairwise_apart h.apart hpair hpair' hle
        · exact (eq_of_pairwise_apart h.apart hpair' hpair hle).symm
      subst hsame
      rw [List.append_cancel_left hr]

namespace Expectation

variable {tree : Tree} {path : Path} {chain : Chain} {call member subject argument matching : Part}

/-- The tokens between the operands of a comparison. -/
def Chain.between (chain : Chain) : List Token := ⟨.whitespace, " "⟩ :: tokensOf chain.operator ++ [⟨.whitespace, " "⟩]

lemma comparison_eq (chain : Chain) (right : Tree) :
    chain.comparison right = .node .binaryExpr (chain.subject :: (chain.between.map Tree.leaf ++ [right])) := by
  simp [Chain.comparison, Chain.between]

variable {children : List Tree} {kind : Kind} {right : Tree}

/-- The nodes of a comparison are itself and those of its operands. -/
lemma sub?_comparison {s : Path} (h : (chain.comparison right).sub? s = some (.node kind children)) :
    s = [] ∨ (∃ r, s = 0 :: r ∧ chain.subject.sub? r = some (.node kind children)) ∨
      ∃ r, s = (chain.between.length + 1) :: r ∧ right.sub? r = some (.node kind children) := by
  rw [comparison_eq] at h
  cases s with
  | nil => exact Or.inl rfl
  | cons i r =>
    rw [sub?_node_cons, Option.bind_eq_some_iff] at h
    obtain ⟨child, hchild, hsub⟩ := h
    cases i with
    | zero =>
      obtain rfl : chain.subject = child := by simpa using hchild
      exact Or.inr (Or.inl ⟨r, rfl, hsub⟩)
    | succ i =>
      rw [List.getElem?_cons_succ] at hchild
      by_cases hi : i < chain.between.length
      · -- a token holds no node
        exfalso
        rw [List.getElem?_append_left (by simpa using hi), List.getElem?_map, Option.map_eq_some_iff] at hchild
        obtain ⟨token, -, rfl⟩ := hchild
        cases r <;> simp [sub?] at hsub
      · rw [List.getElem?_append_right (by simpa using hi), List.length_map] at hchild
        have hzero : i - chain.between.length = 0 := by
          by_contra hne
          rw [List.getElem?_eq_none (by simp; omega)] at hchild
          simp at hchild
        obtain rfl : right = child := by simpa [hzero] using hchild
        obtain rfl : i = chain.between.length := by omega
        exact Or.inr (Or.inr ⟨r, rfl, hsub⟩)

lemma sub?_comparison_subject (chain : Chain) (right : Tree) (r : Path) :
    (chain.comparison right).sub? (0 :: r) = chain.subject.sub? r := by
  rw [comparison_eq, sub?_node_cons]
  rfl

lemma sub?_comparison_right (chain : Chain) (right : Tree) (r : Path) :
    (chain.comparison right).sub? ((chain.between.length + 1) :: r) = right.sub? r := by
  rw [comparison_eq, sub?_node_cons, List.getElem?_cons_succ, List.getElem?_append_right (by simp)]
  simp

lemma Links.exists_subject_path (h : Links tree path chain call member subject argument matching) :
    ∃ i j, subject.path = path ++ [i, j] ∧ tree.sub? subject.path = some chain.subject ∧
      ∃ tree, call.tree.children[i]? = some tree ∧ tree.kind = .memberExpr := by
  obtain ⟨hpath, hcall⟩ := Part.inPlace_of_part? h.part
  obtain ⟨hmember, i, hi, hchild⟩ := hcall.child (Part.mem_children_of_expression? h.member_eq).1
  obtain ⟨hsubject, j, hj, -⟩ := hmember.child (Part.mem_children_of_expression? h.subject_eq).1
  refine ⟨i, j, by rw [hj, hi, hpath]; simp, by rw [h.subject_tree]; exact hsubject, member.tree, hchild, h.member_kind⟩

/-- Where the operand of a chain stands. -/
lemma Links.exists_operand_path (h : Links tree path chain call member subject argument matching) {operand : Tree}
    (hoperand : chain.argument? = some operand) :
    ∃ i r, tree.sub? (path ++ i :: r) = some operand ∧ operand.kind.isExpression = true ∧
      ∃ tree, call.tree.children[i]? = some tree ∧ tree.kind = .argumentList := by
  obtain ⟨hpath, hcall⟩ := Part.inPlace_of_part? h.part
  obtain ⟨first, value, hfirst, hvalue, rfl⟩ := h.exists_operand hoperand
  have hmem : argument ∈ call.arguments := by simp [h.arguments_eq]
  obtain ⟨list, hlist, hlistKind, hargument⟩ := Part.exists_argumentList hmem
  obtain ⟨inner, hinner, -, hfirst⟩ := Part.exists_argumentList hfirst
  obtain ⟨hmember, hexpression⟩ := Part.mem_children_of_expression? hvalue
  -- the argument list, the argument, the matcher, its argument list, its argument and the value
  obtain ⟨hlist, i, hi, hchild⟩ := hcall.child hlist
  obtain ⟨hargument, j, hj, -⟩ := hlist.child hargument
  obtain ⟨hmatching, k, hk, -⟩ := hargument.child (Part.mem_children_of_expression? h.matching_eq).1
  obtain ⟨hinner, l, hl, -⟩ := hmatching.child hinner
  obtain ⟨hfirst, m, hm, -⟩ := hinner.child hfirst
  obtain ⟨hvalue, n, hn, -⟩ := hfirst.child hmember
  have hplace : value.path = path ++ [i, j, k, l, m, n] := by
    rw [hn, hm, hl, hk, hj, hi, hpath]
    simp
  exact ⟨i, [j, k, l, m, n], hplace ▸ hvalue, hexpression, list.tree, hchild, hlistKind⟩

lemma sub?_literal {token : Token} {r : Path}
    (h : (Tree.node .literalExpr [.leaf token]).sub? r = some (.node kind children)) :
    r = [] ∧ kind = .literalExpr := by
  cases r with
  | nil => exact ⟨rfl, by simp_all⟩
  | cons i r =>
    exfalso
    rw [sub?_node_cons, Option.bind_eq_some_iff] at h
    obtain ⟨child, hchild, h⟩ := h
    obtain rfl : child = .leaf token := by simpa using List.mem_of_getElem? hchild
    cases r <;> simp [sub?] at h

/-- The nodes of an operand in parentheses are those of the operand and the pair of parentheses. -/
lemma sub?_parenthesized {operand : Tree} {r : Path} {kind : Kind} {children : List Tree}
    (h : (Tree.node .tupleExpr [.leaf ⟨.lparen, "("⟩, operand, .leaf ⟨.rparen, ")"⟩]).sub? r =
      some (.node kind children)) :
    r = [] ∧ kind = .tupleExpr ∨ ∃ t, r = 1 :: t ∧ operand.sub? t = some (.node kind children) := by
  cases r with
  | nil => exact Or.inl ⟨rfl, by simp_all⟩
  | cons i r =>
    rw [sub?_node_cons, Option.bind_eq_some_iff] at h
    obtain ⟨child, hchild, h⟩ := h
    match i, hchild with
    | 0, hchild =>
      obtain rfl : Tree.leaf ⟨.lparen, "("⟩ = child := by simpa using hchild
      cases r <;> simp [sub?] at h
    | 1, hchild =>
      obtain rfl : operand = child := by simpa using hchild
      exact Or.inr ⟨r, rfl, h⟩
    | 2, hchild =>
      obtain rfl : Tree.leaf ⟨.rparen, ")"⟩ = child := by simpa using hchild
      cases r <;> simp [sub?] at h
    | i + 3, hchild => simp at hchild

variable (h : Links tree path chain call member subject argument matching) (hright : chain.right? = some right)

include h hright

/-- What stands to the right of the operator: a node of it lies below the operand, or is an expression, and a call only
if it is all that stands there. -/
lemma Links.exists_right_kept :
    ∃ kept : Option (Path × Path),
      (∀ pair ∈ kept, (∃ i r, pair.2 = path ++ i :: r ∧
          ∃ tree, call.tree.children[i]? = some tree ∧ tree.kind = .argumentList) ∧
        ∃ part, right.sub? pair.1 = some part ∧ tree.sub? pair.2 = some part) ∧
      ∀ r kind children, right.sub? r = some (.node kind children) →
        (∃ pair ∈ kept, ∃ i t, r = pair.1 ++ i :: t) ∨ kind.isExpression = true ∧ (kind = .callExpr → r = []) := by
  rcases right?_cases h hright with ⟨literal, -, -, rfl⟩ | ⟨operand, hoperand, hright⟩
  · refine ⟨none, by simp, fun r kind children hr => Or.inr ?_⟩
    obtain ⟨rfl, rfl⟩ := sub?_literal hr
    exact ⟨rfl, fun _ => rfl⟩
  · obtain ⟨k, t, hplace, hexpression, list⟩ := h.exists_operand_path hoperand
    rcases hright with rfl | ⟨hneeds, rfl⟩
    · refine ⟨some ([], path ++ k :: t), ?_, fun r kind children hr => ?_⟩
      · rintro pair ⟨⟩
        exact ⟨⟨k, t, rfl, list⟩, right, sub?_nil right, hplace⟩
      · cases r with
        | cons i r => exact Or.inl ⟨_, rfl, i, r, rfl⟩
        | nil =>
          obtain rfl : right = .node kind children := by simpa using hr
          exact Or.inr ⟨hexpression, fun _ => rfl⟩
    · refine ⟨some ([1], path ++ k :: t), ?_, fun r kind children hr => ?_⟩
      · rintro pair ⟨⟩
        exact ⟨⟨k, t, rfl, list⟩, operand, rfl, hplace⟩
      · rcases sub?_parenthesized hr with ⟨rfl, rfl⟩ | ⟨_ | ⟨j, r⟩, rfl, hnode⟩
        · exact Or.inr ⟨rfl, by simp⟩
        · -- an operand in parentheses is no call
          obtain rfl : operand = .node kind children := by simpa using hnode
          refine Or.inr ⟨hexpression, ?_⟩
          rintro rfl
          simp [needsParentheses, Tree.kind] at hneeds
        · exact Or.inl ⟨_, rfl, j, r, rfl⟩

/-- A comparison is put together from the operands of its chain. -/
lemma Links.exists_assembled : ∃ kept, Assembled tree path (chain.comparison right) kept := by
  obtain ⟨i, j, hplace, hsubject, memberTree, hmember, hmemberKind⟩ := h.exists_subject_path
  obtain ⟨kept, hkept, hnodes⟩ := h.exists_right_kept hright
  rw [hplace] at hsubject
  have hsubjectKind : chain.subject.kind = .callExpr := by
    rw [h.subject_tree]
    exact h.subject_isCall.2
  refine ⟨([0], path ++ [i, j]) :: kept.toList.map fun pair => ((chain.between.length + 1) :: pair.1, pair.2),
    ?_, ?_, ?_, ?_⟩
  · simp only [List.mem_cons, List.mem_map, Option.mem_toList]
    rintro pair (rfl | ⟨pair, hpair, rfl⟩)
    · simp
    · obtain ⟨k, r, hpath, -⟩ := (hkept pair hpair).1
      simp [hpath]
  · simp only [List.mem_cons, List.mem_map, Option.mem_toList]
    rintro pair (rfl | ⟨pair, hpair, rfl⟩)
    · exact ⟨_, sub?_comparison_subject chain right [], hsubject⟩
    · simpa [sub?_comparison_right] using (hkept pair hpair).2
  · rw [List.pairwise_cons]
    refine ⟨?_, by cases kept <;> simp⟩
    simp only [List.mem_map, Option.mem_toList]
    rintro pair ⟨pair, hpair, rfl⟩
    obtain ⟨k, r, hpath, listTree, hlist, hlistKind⟩ := (hkept pair hpair).1
    -- the subject is in the member, the operand in the argument list
    have hne : i ≠ k := by
      rintro rfl
      rw [hmember, Option.some.injEq] at hlist
      rw [hlist, hlistKind] at hmemberKind
      simp at hmemberKind
    simp only [hpath, List.prefix_append_right_inj, List.cons_prefix_cons]
    exact ⟨fun h => hne h.1, fun h => hne h.1.symm⟩
  · intro s kind children hsub
    rcases sub?_comparison hsub with rfl | ⟨r, rfl, hr⟩ | ⟨r, rfl, hr⟩
    · rw [comparison_eq, sub?_nil, Option.some.injEq, Tree.node.injEq] at hsub
      obtain ⟨rfl, -⟩ := hsub
      exact Or.inr ⟨rfl, by simp⟩
    · cases r with
      | cons k t => exact Or.inl ⟨_, List.mem_cons_self, k, t, rfl⟩
      | nil =>
        obtain rfl : kind = .callExpr := by
          rw [sub?_nil, Option.some.injEq] at hr
          simpa [hr, Tree.kind] using hsubjectKind
        exact Or.inr ⟨rfl, fun _ => rfl⟩
    · rcases hnodes r kind children hr with ⟨pair, hpair, k, t, rfl⟩ | ⟨hexpression, hcall⟩
      · refine Or.inl ⟨((chain.between.length + 1) :: pair.1, pair.2), ?_, k, t, rfl⟩
        exact List.mem_cons_of_mem _ (List.mem_map.2 ⟨pair, Option.mem_toList.2 hpair, rfl⟩)
      · refine Or.inr ⟨hexpression, fun hkind => ?_⟩
        rw [hcall hkind]
        rfl

end Expectation

end Rules

/-! ## Sites seen again -/

namespace Part

variable {part later : Part}

lemma rel_type? (h : part.tree.Echo later.tree) (hpart : keepsNodes part.kind = true) :
    Option.Rel (fun a b => a.tree.Echo b.tree) part.type? later.type? := by
  rw [type?, type?, types, types, List.head?_filter, List.head?_filter]
  have hrel := rel_find? (p := fun child : Part => child.kind.isType) (q := fun child : Part => child.kind.isType)
    (forall₂_nodes h hpart) (fun a b hab => hab.of_kind (p := Kind.isType) rfl)
  refine rel_mono hrel fun a b hab => hab.1.echo_of_kind fun hkind => ?_
  have htype : a.tree.kind.isType = true := hab.2
  simp [hkind, Kind.isType] at htype

/-- An edit does not change whether a type is the empty one. -/
lemma isVoid_eq (h : part.tree.Echo later.tree) : later.isVoid = part.isVoid := by
  have hform : later.typeForm? = part.typeForm? := by rw [typeForm?, typeForm?, kind, kind, h.isNode_eq, h.kind_eq]
  by_cases hkeeps : keepsNodes part.kind = true
  · have hname : later.typeName? = part.typeName? := by
      rw [typeName?, typeName?, find?_childTokens h fun token htoken => by simp_all [Token.isTrivia, Kind.isTrivia]]
    have hgeneric : later.genericArguments?.isNone = part.genericArguments?.isNone :=
      isNone_of_rel (rel_node? h hkeeps (by simp) (by simp))
    have helements : later.tupleElements.isEmpty = part.tupleElements.isEmpty := by
      have hrel := List.rel_filter (p := fun child : Part => child.kind == .tupleTypeElement)
        (q := fun child : Part => child.kind == .tupleTypeElement)
        (fun _ _ hab => by simp only [kind, hab.of_kind (p := (· == .tupleTypeElement)) rfl]) (forall₂_nodes h hkeeps)
      have hlength : later.tupleElements.length = part.tupleElements.length := hrel.length_eq.symm
      rw [Bool.eq_iff_iff, List.isEmpty_iff_length_eq_zero, List.isEmpty_iff_length_eq_zero, hlength]
    rw [isVoid, isVoid, hform, hname, hgeneric, helements]
  · -- a signature is no type
    have hnone : part.typeForm? = none := by
      simp only [keepsNodes, Bool.and_eq_true, bne_iff_ne, not_and_or, not_not] at hkeeps
      rcases hkeeps with hkind | hkind <;> simp [typeForm?, hkind, TypeForm.ofKind?, Kind.isType]
    rw [isVoid, isVoid, hform, hnone]

end Part

namespace Rule

/-- A rule has a site at a path. -/
def HasSite (rule : Rule) (tree : Tree) (path : Path) : Prop := (rule.siteAt? tree path).isSome = true

instance (rule : Rule) (tree : Tree) (path : Path) : Decidable (rule.HasSite tree path) :=
  inferInstanceAs (Decidable (_ = true))

lemma hasSite_iff {rule : Rule} {tree : Tree} {path : Path} :
    rule.HasSite tree path ↔ ∃ site, rule.check.find tree path = .ok (some site) := by
  simp [HasSite, Option.isSome_iff_exists, siteAt?_eq_some_iff]

end Rule

namespace Rules

variable {tree later part part' : Tree} {q q' : Path} {closures : Bool}

lemma hasSite_expectation : expectation.HasSite tree q ↔ ∃ chain, chain? tree q = some chain := by
  simp [Rule.hasSite_iff, expectation, Expectation.find, Option.map_eq_some_iff]

/-- A tree is a return clause of the empty type. -/
def isVoidClause (tree : Tree) : Bool :=
  tree.isNode && tree.kind == .returnClause && (Part.type? ⟨[], tree⟩).any Part.isVoid

lemma any_isVoid_eq (h : part.Echo part') (hkind : part.kind = .returnClause) (p p' : Path) :
    (Part.type? ⟨p', part'⟩).any Part.isVoid = (Part.type? ⟨p, part⟩).any Part.isVoid := by
  have hkeeps : Part.keepsNodes (Part.kind ⟨p, part⟩) = true := by simp [Part.keepsNodes, Part.kind, hkind]
  have hrel : Option.Rel _ (Part.type? ⟨p, part⟩) (Part.type? ⟨p', part'⟩) := Part.rel_type? h hkeeps
  rcases rel_cases hrel with ⟨ha, hb⟩ | ⟨a, b, ha, hb, hab⟩
  · rw [ha, hb]
  · rw [ha, hb, Option.any_some, Option.any_some, Part.isVoid_eq hab]

lemma isVoidClause_eq (h : part.Echo part') : isVoidClause part' = isVoidClause part := by
  rw [isVoidClause, isVoidClause, h.isNode_eq, h.kind_eq]
  by_cases hkind : part.kind = .returnClause
  · rw [any_isVoid_eq h hkind]
  · have hno : (part.kind == .returnClause) = false := beq_eq_false_iff_ne.2 hkind
    rw [hno, Bool.and_false, Bool.false_and, Bool.false_and]

lemma isVoidClause_iff (p : Path) : isVoidClause part = true ↔
    part.isNode = true ∧ part.kind = .returnClause ∧ (Part.type? ⟨p, part⟩).any Part.isVoid = true := by
  rw [isVoidClause, Bool.and_eq_true, Bool.and_eq_true, beq_iff_eq, and_assoc]
  refine and_congr_right fun _ => and_congr_right fun hkind => ?_
  rw [any_isVoid_eq (Trims.refl part).echo hkind p []]

lemma exists_of_isVoidClause (h : isVoidClause part = true) : ∃ children, part = .node .returnClause children := by
  obtain ⟨hnode, hkind, -⟩ := (isVoidClause_iff []).1 h
  exact exists_node_of_kind hnode hkind

lemma exists_firstToken? (hshaped : part.Shaped) (hnode : part.isNode = true) (hkind : part.kind = .returnClause) :
    ∃ token, part.firstToken? = some token ∧ token.isTrivia = false := by
  obtain ⟨children, rfl⟩ := exists_node_of_kind hnode hkind
  obtain ⟨token, rest, rfl, htoken⟩ := hshaped.begins_token rfl
  exact ⟨token, rfl, htoken⟩

/-- A site is a return clause of the empty type in a signature. -/
lemma hasSite_voidReturn (hshaped : tree.Shaped) :
    (voidReturn closures).HasSite tree q ↔ ∃ part, tree.sub? q = some part ∧ isVoidClause part = true ∧
      (VoidReturn.inClosure? closures tree q).isSome = true := by
  rw [Rule.hasSite_iff]
  simp only [voidReturn, VoidReturn.check, VoidReturn.find, Tree.part?]
  cases hpart : tree.sub? q with
  | none => simp
  | some part =>
    cases hin : VoidReturn.inClosure? closures tree q with
    | none => simp
    | some inClosure =>
      simp only [Option.map_some, Option.some.injEq, exists_eq_left', Option.isSome_some, and_true]
      rw [isVoidClause_iff q]
      constructor
      · rintro ⟨site, hsite⟩
        split at hsite
        next hvoid => simpa [and_assoc, Part.kind] using hvoid
        next => simp at hsite
      · rintro ⟨hnode, hkind, hvoid⟩
        obtain ⟨token, htoken, -⟩ := exists_firstToken? (hshaped.sub? hpart) hnode hkind
        simp [hnode, Part.kind, hkind, hvoid, htoken]

lemma exists_clause_of_hasSite (hshaped : tree.Shaped) (h : (voidReturn closures).HasSite tree q) :
    ∃ children, tree.sub? q = some (.node .returnClause children) := by
  obtain ⟨part, hpart, hvoid, -⟩ := (hasSite_voidReturn hshaped).1 h
  obtain ⟨children, rfl⟩ := exists_of_isVoidClause hvoid
  exact ⟨children, hpart⟩

variable {path : Path} {rule : Rule}

/-- What echoes a part in the same surroundings is a site only if the part was one. -/
lemma hasSite_of_echo (hrule : rule.IsBuiltin) (hshaped : tree.Shaped) (hshaped' : later.Shaped)
    (hpart : tree.sub? q = some part) (hpart' : later.sub? q' = some part') (hecho : part.Echo part')
    (howner : later.ownerKind? q' = tree.ownerKind? q) : rule.HasSite later q' ↔ rule.HasSite tree q := by
  rcases hrule with rfl | ⟨closures, rfl⟩
  · rw [hasSite_expectation, hasSite_expectation]
    have hrel := rel_chain? hpart hpart' hecho howner (hshaped.sub? hpart)
    rcases rel_cases hrel with ⟨ha, hb⟩ | ⟨a, b, ha, hb, -⟩ <;> simp [ha, hb]
  · rw [hasSite_voidReturn hshaped, hasSite_voidReturn hshaped', VoidReturn.inClosure?, VoidReturn.inClosure?, howner]
    simp [hpart, hpart', isVoidClause_eq hecho]

/-- The kinds of sites. A call is a site only where it is not bound tightly. -/
lemma kind_of_hasSite (hrule : rule.IsBuiltin) (hshaped : tree.Shaped) (h : rule.HasSite tree q) :
    ∃ kind children, tree.sub? q = some (.node kind children) ∧
      (kind = .returnClause ∨ kind = .callExpr ∧ (tree.ownerKind? q).any bindsTightly = false) := by
  rcases hrule with rfl | ⟨closures, rfl⟩
  · obtain ⟨chain, hchain⟩ := hasSite_expectation.1 h
    obtain ⟨call, member, subject, argument, matching, links⟩ := chain?_eq_some_iff.1 hchain
    obtain ⟨part, hpart, rfl⟩ := Option.map_eq_some_iff.1 links.part
    obtain ⟨hnode, hkind⟩ := links.isCall
    obtain ⟨children, rfl⟩ := exists_node_of_kind hnode hkind
    exact ⟨_, children, hpart, Or.inr ⟨rfl, links.loose⟩⟩
  · obtain ⟨children, hpart⟩ := exists_clause_of_hasSite hshaped h
    exact ⟨_, children, hpart, Or.inl rfl⟩

/-! ## Origins -/

/-- A site of a tree with a new part comes from a site of the tree before, which is not the place of the new part. -/
theorem Assembled.exists_origin {new : Tree} {kept : List (Path × Path)} (h : Assembled tree path new kept) {old : Tree}
    (hold : tree.sub? path = some old) (hrule : rule.IsBuiltin) (hshaped : tree.Shaped)
    (hshaped' : (tree.replaceAt path new).Shaped)
    (houtside : ∀ q, ¬ path <+: q → (rule.HasSite (tree.replaceAt path new) q ↔ rule.HasSite tree q))
    (hsite : rule.HasSite (tree.replaceAt path new) q') :
    ∃ q, Origin path kept q' q ∧ q ≠ path ∧ rule.HasSite tree q := by
  by_cases hout : path <+: q'
  · obtain ⟨s, rfl⟩ := hout
    have hsub : ∀ r, (tree.replaceAt path new).sub? (path ++ r) = new.sub? r := fun r => by
      rw [sub?_append, sub?_replaceAt_self new hold]
      rfl
    obtain ⟨kind, children, hnode, hkind⟩ := kind_of_hasSite hrule hshaped' hsite
    rw [hsub] at hnode
    rcases h.cases s kind children hnode with ⟨pair, hpair, i, r, rfl⟩ | ⟨hexpression, hcall⟩
    · obtain ⟨part, hnew, htree⟩ := h.same pair hpair
      have hpart : tree.sub? (pair.2 ++ i :: r) = some (.node kind children) := by
        rw [sub?_append, hnew] at hnode
        rw [sub?_append, htree]
        exact hnode
      have howner : (tree.replaceAt path new).ownerKind? (path ++ (pair.1 ++ i :: r)) =
          tree.ownerKind? (pair.2 ++ i :: r) := by
        rw [← List.append_assoc, ownerKind?_append_cons (by rw [hsub]; exact hnew), ownerKind?_append_cons htree]
      refine ⟨_, .inside hpair, ?_, ?_⟩
      · intro heq
        obtain ⟨t, ht⟩ := h.inside pair hpair
        have := congrArg List.length heq
        simp [← ht] at this
      · refine (hasSite_of_echo hrule hshaped hshaped' hpart ?_ (Trims.refl _).echo howner).1 hsite
        rw [hsub]
        exact hnode
    · -- the new nodes are expressions that are bound tightly
      exfalso
      rcases hkind with rfl | ⟨rfl, hloose⟩
      · simp [Kind.isExpression] at hexpression
      · cases s with
        | nil => simp [ownerKind?] at hcall
        | cons i r =>
          rw [ownerKind?_append_cons (sub?_replaceAt_self new hold), hcall rfl] at hloose
          simp at hloose
  · refine ⟨q', .outside hout, ?_, (houtside q' hout).1 hsite⟩
    rintro rfl
    exact hout List.prefix_rfl

/-- A rewrite makes no new sites. -/
theorem Rewrites.exists_origins {tokens : List Token} (hdescends : Descends tokens tree) (h : Rewrites path tree later) :
    ∃ kept, (∀ pair ∈ kept, path <+: pair.2) ∧
      (∀ {p q r}, Origin path kept p r → Origin path kept q r → p = q) ∧
      ∀ {rule : Rule}, rule.IsBuiltin → ∀ {q'}, rule.HasSite later q' →
        ∃ q, Origin path kept q' q ∧ q ≠ path ∧ rule.HasSite tree q := by
  have hdescends' := hdescends.rewrite h
  obtain ⟨chain, right, hne, hchain, hright, rfl⟩ := h
  obtain ⟨part, hpart⟩ := exists_part_of_chain? hchain
  obtain ⟨call, member, subject, argument, matching, links⟩ := chain?_eq_some_iff.1 hchain
  obtain ⟨kept, hkept⟩ := links.exists_assembled hright
  have hrewritten := (Rewritten.init tree []).step ⟨chain, hchain⟩ (by simp) hne hchain hright []
  refine ⟨kept, hkept.inside, hkept.origin_injective, fun hrule _ hsite => ?_⟩
  refine hkept.exists_origin hpart hrule hdescends.shaped hdescends'.shaped (fun q hout => ?_) hsite
  have houter : ∀ p ∈ [path], ¬ p <+: q := by simpa using hout
  rcases rel_cases (hrewritten.rel_sub? houter) with ⟨hnone, hnone'⟩ | ⟨part, part', hpart, hpart', hecho⟩
  · -- there is no site where there is nothing
    constructor
    · intro hsite
      obtain ⟨kind, children, hnode, -⟩ := kind_of_hasSite hrule hdescends'.shaped hsite
      rw [hnone'] at hnode
      simp at hnode
    · intro hsite
      obtain ⟨kind, children, hnode, -⟩ := kind_of_hasSite hrule hdescends.shaped hsite
      rw [hnone] at hnode
      simp at hnode
  · exact hasSite_of_echo hrule hdescends.shaped hdescends'.shaped hpart hpart' hecho (hrewritten.ownerKind?_eq houter)

end Rules

/-- A pass that takes out return clauses makes no new sites. -/
theorem Cleared.exists_origin {tokens : List Token} {tree : Tree} (hdescends : Descends tokens tree) {done : List Path}
    {pass : Pass} (h : Cleared tree done pass) {rule : Rule} (hrule : rule.IsBuiltin) {q' : Path}
    (hsite : rule.HasSite pass.tree q') :
    ∃ q, pass.moved q = some q' ∧ q ∉ done ∧ rule.HasSite tree q := by
  have hdescends' := hdescends.clear h
  obtain ⟨kind, children, hnode, -⟩ := kind_of_hasSite hrule hdescends'.shaped hsite
  have hmem := mem_nodePaths.2 ⟨kind, children, hnode⟩
  rw [h.relocation.nodes, List.mem_filterMap] at hmem
  obtain ⟨q, hq, hmoved⟩ := hmem
  obtain ⟨kind, children, hpart⟩ := mem_nodePaths.1 hq
  obtain ⟨part', hpart', htrims, howner⟩ := h.trimming.part hmoved hpart
  refine ⟨q, hmoved, fun hdone => ?_, ?_⟩
  · simp [h.inside q hdone q List.prefix_rfl] at hmoved
  · exact (hasSite_of_echo hrule hdescends.shaped hdescends'.shaped hpart hpart' htrims.echo howner).1 hsite

end SwiftTidy

import SwiftTidy.Proofs.ChainForms
import SwiftTidy.Proofs.Persistence

/-!
# Chains exchanged for comparisons

The tree of a text with comparisons in the place of some of its chains is made from the tree itself
(`Graft.ofTree`). If the chains can be lifted (`Rules.isLiftable`), it is what a reader makes of its
tokens.
-/

namespace SwiftTidy

namespace Tree

lemma sizeOf_lt_of_sub? {tree part : Tree} {i : Nat} {r : Path} (h : tree.sub? (i :: r) = some part) :
    sizeOf part < sizeOf tree := by
  induction r generalizing tree i with
  | nil =>
    obtain ⟨kind, children, child, rfl, hchild, hpart⟩ := exists_child_of_sub?_cons h
    obtain rfl : child = part := by simpa using hpart
    exact sizeOf_lt_of_mem kind (List.mem_of_getElem? hchild)
  | cons j r ih =>
    obtain ⟨kind, children, child, rfl, hchild, hpart⟩ := exists_child_of_sub?_cons h
    exact (ih hpart).trans (sizeOf_lt_of_mem kind (List.mem_of_getElem? hchild))

lemma leavesOf_of_getElem? {trees : List Tree} {tree : Tree} {i : Nat} (h : trees[i]? = some tree) :
    leavesOf trees = leavesOf (trees.take i) ++ (tree.leaves ++ leavesOf (trees.drop (i + 1))) := by
  obtain ⟨front, back, rfl, rfl⟩ := exists_append_of_getElem? h
  simp

end Tree

namespace Grammar

namespace Graft

/-! ## Grafts of a tree -/

/-- What stands in a place. Inside a part that is exchanged there are no places. -/
def sub? : Graft → Path → Option Graft
  | graft, [] => some graft
  | .node _ children, i :: path => children[i]?.bind fun child => child.sub? path
  | _, _ :: _ => none

/-- How a call is exchanged, and where in it the subject and the operands stand. -/
structure Swap where
  exchange : Exchange
  subject : Path
  operands : List Path

mutual

/-- A tree of which the nodes at some paths are exchanged. -/
def ofTree (swaps : Path → Option Swap) (path : Path) : Tree → Graft
  | .leaf token => .leaf token
  | .node kind children =>
    let inner := Graft.node kind (ofTrees swaps path 0 children)
    match swaps path with
    | some new =>
      .swap (.node kind children) new.exchange ((inner.sub? new.subject).getD inner) (new.operands.filterMap inner.sub?)
    | none => inner

/-- The children of a node, the first of which is child number `i`. -/
def ofTrees (swaps : Path → Option Swap) (path : Path) (i : Nat) : List Tree → List Graft
  | [] => []
  | tree :: rest => ofTree swaps (path ++ [i]) tree :: ofTrees swaps path (i + 1) rest

end

variable {swaps : Path → Option Swap} {path : Path} {kind : Kind} {children : List Tree}

lemma ofTree_node (h : swaps path = none) :
    ofTree swaps path (.node kind children) = .node kind (ofTrees swaps path 0 children) := by
  rw [ofTree, h]

mutual

lemma tree_ofTree (path : Path) (part : Tree) : (ofTree swaps path part).tree false = part := by
  cases part with
  | leaf token => rfl
  | node kind children =>
    rw [ofTree]
    split
    · rfl
    · rw [tree, treesOf_ofTrees path 0 children]

lemma treesOf_ofTrees (path : Path) (i : Nat) (parts : List Tree) :
    treesOf false (ofTrees swaps path i parts) = parts := by
  cases parts with
  | nil => rfl
  | cons part rest => rw [ofTrees, treesOf, tree_ofTree _ part, treesOf_ofTrees path (i + 1) rest]

end

lemma getElem?_ofTrees (path : Path) (i : Nat) (parts : List Tree) (j : Nat) :
    (ofTrees swaps path i parts)[j]? = parts[j]?.map (ofTree swaps (path ++ [i + j])) := by
  induction parts generalizing i j with
  | nil => rfl
  | cons part rest ih =>
    cases j with
    | zero => rfl
    | succ j => rw [ofTrees, List.getElem?_cons_succ, ih, List.getElem?_cons_succ, Nat.add_right_comm, Nat.add_assoc]

/-- Where nothing is exchanged on the way, a part of a tree has the place it had. -/
lemma sub?_ofTree {part inner : Tree} {r : Path} (hpart : part.sub? r = some inner)
    (hr : ∀ p, p <+: r → p ≠ r → swaps (path ++ p) = none) :
    (ofTree swaps path part).sub? r = some (ofTree swaps (path ++ r) inner) := by
  induction r generalizing path part with
  | nil =>
    obtain rfl : part = inner := by simpa using hpart
    simp [sub?]
  | cons i r ih =>
    obtain ⟨kind, children, child, rfl, hchild, hsub⟩ := Tree.exists_child_of_sub?_cons hpart
    have hnone : swaps path = none := by simpa using hr [] List.nil_prefix (by simp)
    rw [ofTree_node hnone, sub?, getElem?_ofTrees, hchild, Nat.zero_add, Option.map_some, Option.bind_some,
      ih hsub fun p hp hne => ?_, List.append_assoc, List.singleton_append]
    rw [List.append_assoc, List.singleton_append]
    exact hr (i :: p) (List.cons_prefix_cons.2 ⟨rfl, hp⟩) (by simpa using hne)

/-- The same, below a node that may be exchanged itself. -/
lemma sub?_node_ofTrees {inner : Tree} {i : Nat} {r : Path} (hpart : (Tree.node kind children).sub? (i :: r) = some inner)
    (hr : ∀ p, p <+: i :: r → p ≠ i :: r → p ≠ [] → swaps (path ++ p) = none) :
    (node kind (ofTrees swaps path 0 children)).sub? (i :: r) = some (ofTree swaps (path ++ i :: r) inner) := by
  obtain ⟨_, _, child, htree, hchild, hsub⟩ := Tree.exists_child_of_sub?_cons hpart
  obtain ⟨rfl, rfl⟩ := Tree.node.inj htree
  rw [sub?, getElem?_ofTrees, hchild, Nat.zero_add, Option.map_some, Option.bind_some, sub?_ofTree hsub fun p hp hne => ?_,
    List.append_assoc, List.singleton_append]
  rw [List.append_assoc, List.singleton_append]
  exact hr (i :: p) (List.cons_prefix_cons.2 ⟨rfl, hp⟩) (by simpa using hne) (by simp)

lemma isExpression_ofTree {part : Tree} (h : part.IsExpression) : ((ofTree swaps path part).tree true).IsExpression := by
  cases part with
  | leaf token => cases h.1
  | node kind children =>
    rw [ofTree]
    split
    · exact ⟨rfl, rfl⟩
    · exact ⟨rfl, h.2⟩

lemma length_treesOf_ofTrees (later : Bool) (path : Path) (i : Nat) (parts : List Tree) :
    (treesOf later (ofTrees swaps path i parts)).length = parts.length := by
  rw [treesOf_eq_map, List.length_map]
  induction parts generalizing i with
  | nil => rfl
  | cons part rest ih => rw [ofTrees, List.length_cons, ih, List.length_cons]

lemma drop_ofTrees (path : Path) (i n : Nat) (parts : List Tree) :
    (ofTrees swaps path i parts).drop n = ofTrees swaps path (i + n) (parts.drop n) := by
  induction n generalizing i parts with
  | zero => rfl
  | succ n ih =>
    cases parts with
    | nil => rfl
    | cons part rest => rw [ofTrees, List.drop_succ_cons, ih, List.drop_succ_cons, Nat.add_right_comm, Nat.add_assoc]

/-- The tokens of the first children. -/
lemma leavesOf_take_ofTrees (swaps : Path → Option Swap) (path : Path) {laters : List Tree}
    (hlength : laters.length = children.length) (n : Nat)
    (h : ∀ i < n, ∀ child later, children[i]? = some child → laters[i]? = some later →
      ((ofTree swaps (path ++ [i]) child).tree true).leaves = later.leaves) :
    Tree.leavesOf ((treesOf true (ofTrees swaps path 0 children)).take n) = Tree.leavesOf (laters.take n) := by
  rw [Tree.leavesOf_eq_flatten, Tree.leavesOf_eq_flatten]
  congr 1
  refine List.ext_getElem? fun i => ?_
  rw [treesOf_eq_map, List.getElem?_map, List.getElem?_map, List.getElem?_take, List.getElem?_take]
  split
  · next hi =>
    rw [List.getElem?_map, getElem?_ofTrees, Nat.zero_add]
    cases hlater : laters[i]? with
    | none =>
      rw [List.getElem?_eq_none_iff, hlength] at hlater
      rw [List.getElem?_eq_none hlater]
      rfl
    | some later =>
      have hlt := (List.getElem?_eq_some_iff.1 hlater).1
      have hchild : children[i]? = some children[i] := List.getElem?_eq_getElem (hlength ▸ hlt)
      rw [hchild, Option.map_some, Option.map_some, Option.map_some, Option.map_some, h i hi _ later hchild hlater]
  · rfl

mutual

lemma tree_ofTree_of_none (path : Path) (part : Tree) (h : ∀ p, path <+: p → swaps p = none) :
    (ofTree swaps path part).tree true = part := by
  cases part with
  | leaf token => rfl
  | node kind children =>
    rw [ofTree_node (h path List.prefix_rfl), tree, treesOf_ofTrees_of_none path 0 children fun i _ p hp =>
      h p ((List.prefix_append _ _).trans hp)]

lemma treesOf_ofTrees_of_none (path : Path) (i : Nat) (parts : List Tree)
    (h : ∀ j, i ≤ j → ∀ p, path ++ [j] <+: p → swaps p = none) : treesOf true (ofTrees swaps path i parts) = parts := by
  cases parts with
  | nil => rfl
  | cons part rest =>
    rw [ofTrees, treesOf, tree_ofTree_of_none _ part (h i le_rfl),
      treesOf_ofTrees_of_none path (i + 1) rest fun j hj => h j (Nat.le_of_succ_le hj)]

end

lemma parse_ofTree {text : String} (hroot : swaps [] = none) (hfits : (ofTree swaps [] (parse text)).Fits true false [])
    (hsteady : Steady (ofTree swaps [] (parse text)).segments) :
    parseTokens ((ofTree swaps [] (parse text)).tree true).leaves = (ofTree swaps [] (parse text)).tree true := by
  have hgraft : ofTree swaps [] (parse text) = .node .sourceFile (ofTrees swaps [] 0 (parse text).children) :=
    ofTree_node hroot
  rw [hgraft] at hfits hsteady ⊢
  exact parseTokens_graft (treesOf_ofTrees _ _ _) hfits hsteady

end Graft

end Grammar

namespace Rules

open Expectation Grammar

variable {tree call part later : Tree} {sites done : List Path} {path q : Path} {chain : Chain} {call' : Part}
  {text : String}

/-! ## Chains and comparisons -/

/-- Whether what stands in a place is put in parentheses next to an operator: because it is exchanged itself, or because
of what it is. -/
def isGrouped (tree : Tree) (sites : List Path) (place : Path) : Bool :=
  decide (place ∈ sites) ||
    (tree.sub? place).any fun operand => [Kind.binaryExpr, .ternaryExpr, .tryExpr].contains operand.kind

/-- How a comparison takes the place of the chain at a path. -/
def swapAt? (tree : Tree) (sites : List Path) (path : Path) : Option Graft.Swap := do
  guard (path ∈ sites)
  let chain ← chain? tree path
  let call ← tree.sub? path
  let operator ← Operator.ofTokens? (tokensOf chain.operator)
  match (operandPaths tree path).tail.map (List.drop path.length), chain.matcher.literal? with
  | [], some literal =>
    let last := (call.behind [0, 0]).length - 1
    return ⟨⟨operator, .literal literal, (call.behind [0, 0]).take last, (call.behind [0, 0]).drop last⟩,
      [0, 0], []⟩
  | [place], none =>
    let operand ← call.sub? place
    let back := call.behind place
    let front := (call.behind [0, 0]).take ((call.behind [0, 0]).length - (operand.leaves ++ back).length)
    let side := if isGrouped tree sites (path ++ place) then Side.group else .plain
    return ⟨⟨operator, side, front, back⟩, [0, 0], [place]⟩
  | _, _ => none

lemma swapAt?_eq_none (h : path ∉ sites) : swapAt? tree sites path = none := by
  simp [swapAt?, h]

/-- What becomes of a chain: its subject and its operand stand on the sides of an operator. -/
inductive Flattens (text : String) (sites : List Path) (path : Path) (call subject : Tree) (chain : Chain) :
    Graft → Prop where
  | literal {operator : Operator} {literal : Token} {front back : List Token} (hoperator : operator.tokens = tokensOf chain.operator)
      (hliteral : chain.matcher.literal? = some literal)
      (hpaths : operandPaths (parse text) path = [path ++ [0, 0]])
      (hfront : call.behind [0, 0] = front ++ back) :
      Flattens text sites path call subject chain (.swap call ⟨operator, .literal literal, front, back⟩
        (.ofTree (swapAt? (parse text) sites) (path ++ [0, 0]) subject) [])
  | operand {operator : Operator} {p : Path} {operand : Tree} {front : List Token}
      (hoperator : operator.tokens = tokensOf chain.operator) (hliteral : chain.matcher.literal? = none)
      (hpaths : operandPaths (parse text) path = [path ++ [0, 0], path ++ p]) (hoperand : call.sub? p = some operand)
      (hexpression : operand.IsExpression) (hfront : call.behind [0, 0] = front ++ (operand.leaves ++ call.behind p))
      (hargued : Argued operand (call.behind p ++ (parse text).behind path))
      (hinHead : (parse text).inHead false (path ++ p) = false)
      (howner : (parse text).ownerKind? (path ++ p) = some .argument) :
      Flattens text sites path call subject chain
        (.swap call
          ⟨operator, if isGrouped (parse text) sites (path ++ p) then .group else .plain, front, call.behind p⟩
          (.ofTree (swapAt? (parse text) sites) (path ++ [0, 0]) subject)
          [.ofTree (swapAt? (parse text) sites) (path ++ p) operand])

/-- A chain is flattened in the place where it stands. -/
lemma flattens_ofTree (hfound : ∀ p ∈ sites, ∃ chain, chain? (parse text) p = some chain) (hpath : path ∈ sites)
    {member subject argument matching : Part} (links : Links (parse text) path chain call' member subject argument matching)
    (hcall : (parse text).sub? path = some call) :
    Flattens text sites path call subject.tree chain (.ofTree (swapAt? (parse text) sites) path call) := by
  have hchain : chain? (parse text) path = some chain := chain?_eq_some_iff.2 ⟨_, _, _, _, _, links⟩
  obtain ⟨operator, hofTokens, hoperator⟩ := exists_operator hchain
  obtain ⟨hsorted, hplaces⟩ := exists_operandPaths (shaped_parse text) hchain
  have hpaths := links.operandPaths_eq
  rw [links.subject_path] at hpaths
  have hnone := links.isSome_value?
  obtain ⟨children, rfl, hsubject⟩ : ∃ children, call = .node .callExpr children ∧
      (Tree.node .callExpr children).sub? [0, 0] = some subject.tree := by
    obtain ⟨dots, more, rfl⟩ := links.exists_shape hcall
    exact ⟨_, rfl, rfl⟩
  -- no chain stands between this one and its operands
  have hplace {i : Nat} {r : Path} {inner : Tree} (ho : path ++ i :: r ∈ operandPaths (parse text) path)
      (hinner : (Tree.node .callExpr children).sub? (i :: r) = some inner) :
      (Graft.node .callExpr (Graft.ofTrees (swapAt? (parse text) sites) path 0 children)).sub? (i :: r) =
        some (.ofTree (swapAt? (parse text) sites) (path ++ i :: r) inner) := by
    obtain ⟨-, -, hbetween⟩ := hplaces _ ho
    refine Graft.sub?_node_ofTrees hinner fun p hp hne hnil => swapAt?_eq_none fun hsite => ?_
    obtain ⟨other, hother⟩ := hfound _ hsite
    obtain ⟨between, hsub⟩ := exists_part_of_chain? hother
    obtain heq | hle := hbetween _ between hsub (callsMember_of_chain? hother hsub) (by simpa using hp)
    · exact hne (by simpa using heq)
    · exact hnil (List.length_eq_zero_iff.1 (by simpa using hle.length_le))
  have hleft := hplace (by rw [hpaths]; exact List.mem_cons_self) hsubject
  cases hvalue : value? matching with
  | none =>
    rw [hvalue] at hnone hpaths
    obtain ⟨literal, hliteral⟩ := Option.isSome_iff_exists.1 (by simpa using hnone)
    have hswap : swapAt? (parse text) sites path =
        some ⟨⟨operator, .literal literal,
          ((Tree.node .callExpr children).behind [0, 0]).take (((Tree.node .callExpr children).behind [0, 0]).length - 1),
          ((Tree.node .callExpr children).behind [0, 0]).drop (((Tree.node .callExpr children).behind [0, 0]).length - 1)⟩,
          [0, 0], []⟩ := by
      simp [swapAt?, hpath, hchain, hcall, hofTokens, hpaths, hliteral]
    rw [Graft.ofTree, hswap]
    simp only [hleft, Option.getD_some, List.filterMap_nil]
    exact .literal hoperator hliteral hpaths (List.take_append_drop _ _).symm
  | some value =>
    rw [hvalue] at hnone hpaths
    have hliteral : chain.matcher.literal? = none := by simpa using hnone.symm
    have hpaths : operandPaths (parse text) path = [path ++ [0, 0], value.path] := hpaths
    obtain ⟨hoperand, hexpression, hargued, hinHead, howner⟩ := links.argued hvalue
    obtain ⟨⟨j, t, hp⟩, -⟩ := hplaces value.path (by simp [hpaths])
    rw [Part.InPlace, hp, Tree.sub?_append_some hcall] at hoperand
    rw [hp] at hpaths hargued hinHead howner
    rw [Tree.behind_append hcall] at hargued
    obtain ⟨front, hfront⟩ := Tree.exists_behind_eq (by simpa [hpaths] using hsorted) hsubject hoperand
    have hswap : swapAt? (parse text) sites path =
        some ⟨⟨operator, if isGrouped (parse text) sites (path ++ j :: t) then .group else .plain, front,
          (Tree.node .callExpr children).behind (j :: t)⟩, [0, 0], [j :: t]⟩ := by
      simp [swapAt?, hpath, hchain, hcall, hofTokens, hpaths, hliteral, hoperand, hfront]
    rw [Graft.ofTree, hswap]
    simp only [hleft, hplace (by simp [hpaths]) hoperand, Option.getD_some, List.filterMap_cons, List.filterMap_nil]
    exact .operand hoperator hliteral hpaths hoperand hexpression hfront hargued hinHead howner

lemma Carried.face_of_not_mem (h : Carried tree done q later) (hpart : tree.sub? q = some part) (hq : q ∉ done) :
    later.isNode = part.isNode ∧ later.kind = part.kind := by
  cases h with
  | leaf h | node h =>
    obtain rfl := Option.some.inj (h.symm.trans hpart)
    exact ⟨rfl, rfl⟩
  | comparison hdone => exact absurd hdone hq

lemma Carried.needsParentheses_eq (h : Carried tree done q later)
    (hfound : ∀ p ∈ done, ∃ chain, chain? tree p = some chain) (hpart : tree.sub? q = some part) :
    needsParentheses later = isGrouped tree done q := by
  by_cases hq : q ∈ done
  · rw [isGrouped, decide_eq_true hq, Bool.true_or]
    cases h with
    | leaf hleaf =>
      obtain ⟨chain, hchain⟩ := hfound q hq
      cases callsMember_of_chain? hchain hleaf
    | node _ hnot => exact absurd hq hnot
    | comparison => rfl
  · rw [isGrouped, decide_eq_false hq, Bool.false_or, hpart, Option.any_some, needsParentheses,
      (h.face_of_not_mem hpart hq).2]
    cases part.kind <;> rfl

/-- The tokens of a comparison. -/
lemma leaves_right {new : Chain} {right : Tree} (hright : new.right? = some right) :
    (∃ literal, new.matcher.literal? = some literal ∧ right.leaves = [literal]) ∨
      ∃ operand, new.matcher.literal? = none ∧ new.argument? = some operand ∧
        right.leaves = (bif needsParentheses operand then [⟨.lparen, "("⟩] ++ operand.leaves ++ [⟨.rparen, ")"⟩]
          else operand.leaves) := by
  rw [Chain.right?] at hright
  split at hright
  next literal hliteral =>
    obtain rfl := Option.some.inj hright
    exact .inl ⟨literal, hliteral, rfl⟩
  next operand hliteral hoperand =>
    refine .inr ⟨operand, hliteral, hoperand, ?_⟩
    split at hright
    next hneeds =>
      obtain rfl := Option.some.inj hright
      simp [hneeds]
    next hneeds =>
      obtain rfl := Option.some.inj hright
      simp [hneeds]
  next => cases hright

/-- The sides of a comparison have the tokens of the parts that they were grafted from. -/
lemma exists_swap_of_comparison {old new : Chain} {right : Tree}
    (hfound : ∀ p ∈ done, ∃ chain, chain? (parse text) p = some chain) (hsub : sites ⊆ done) (hq : q ∈ sites)
    (hsites : ∀ p ∈ done, q <+: p → p ∈ sites) (hpart : (parse text).sub? q = some part) (hright : new.right? = some right)
    (hchain : chain? (parse text) q = some old) (hmatcher : new.matcher = old.matcher)
    (hoperator : new.operator = old.operator)
    (hoperands : ∀ (i : Nat) p operand, (operandPaths (parse text) q)[i]? = some p →
      (new.subject :: new.argument?.toList)[i]? = some operand → Carried (parse text) done p operand ∧
        ∀ part, (parse text).sub? p = some part →
          ((Graft.ofTree (swapAt? (parse text) sites) p part).tree true).leaves = operand.leaves) :
    ∃ exchange subject operands, Graft.ofTree (swapAt? (parse text) sites) q part = .swap part exchange subject operands ∧
      exchange.operator.tokens = tokensOf new.operator ∧
      ((subject.tree true).isNode = true ∧ (subject.tree true).kind = .callExpr) ∧
      (subject.tree true).leaves = new.subject.leaves ∧
      (exchange.side.tree (Graft.treesOf true operands)).IsExpression ∧
      (exchange.side.tree (Graft.treesOf true operands)).leaves = right.leaves := by
  have hfoundAt : ∀ p ∈ sites, ∃ chain, chain? (parse text) p = some chain := fun p hp => hfound p (hsub hp)
  obtain ⟨call', member, subject, argument, matching, links⟩ := chain?_eq_some_iff.1 hchain
  obtain ⟨dots, more, hshape⟩ := links.exists_shape hpart
  have hsubjectPart : (parse text).sub? (q ++ [0, 0]) = some subject.tree := by
    rw [Tree.sub?_append_some hpart, hshape]
    rfl
  have hpaths := links.operandPaths_eq
  rw [links.subject_path] at hpaths
  have hleft := (hoperands 0 _ _ (by rw [hpaths]; rfl) rfl).2 _ hsubjectPart
  have hface : ((Graft.ofTree (swapAt? (parse text) sites) (q ++ [0, 0]) subject.tree).tree true).isNode = true ∧
      ((Graft.ofTree (swapAt? (parse text) sites) (q ++ [0, 0]) subject.tree).tree true).kind = .callExpr := by
    obtain ⟨children, hchildren⟩ := Tree.exists_node_of_kind links.subject_isCall.1 links.subject_isCall.2
    rw [hchildren, Graft.ofTree_node (swapAt?_eq_none (links.subject_path ▸ links.subject_not_mem hfoundAt))]
    exact ⟨rfl, rfl⟩
  have hflattens := flattens_ofTree hfoundAt hq links hpart
  generalize Graft.ofTree (swapAt? (parse text) sites) q part = graft at hflattens
  cases hflattens with
  | literal htokens hliteral =>
    refine ⟨_, _, _, rfl, by rw [htokens, hoperator], hface, hleft, ⟨rfl, rfl⟩, ?_⟩
    obtain ⟨literal', hliteral', hleaves⟩ | ⟨_, hnone, -⟩ := leaves_right hright
    · rw [hmatcher, hliteral] at hliteral'
      obtain rfl := Option.some.inj hliteral'
      rw [hleaves]
      rfl
    · rw [hmatcher, hliteral] at hnone
      cases hnone
  | @operand _ p operand _ htokens hliteral hpaths hoperand hexpression =>
    have hplace : (parse text).sub? (q ++ p) = some operand := by rw [Tree.sub?_append_some hpart, hoperand]
    refine ⟨_, _, _, rfl, by rw [htokens, hoperator], hface, hleft, ?_⟩
    obtain ⟨_, hliteral', -⟩ | ⟨operand', -, hargument, hleaves⟩ := leaves_right hright
    · rw [hmatcher, hliteral] at hliteral'
      cases hliteral'
    · have hgrouped : isGrouped (parse text) done (q ++ p) = isGrouped (parse text) sites (q ++ p) := by
        rw [isGrouped, isGrouped, decide_eq_decide.2 ⟨fun h => hsites _ h (List.prefix_append _ _), fun h => hsub h⟩]
      obtain ⟨hcarried, hsame⟩ := hoperands 1 _ operand' (by rw [hpaths]; rfl) (by rw [hargument]; rfl)
      rw [hleaves, hcarried.needsParentheses_eq hfound hplace, hgrouped, Side.leaves_tree, ← hsame _ hplace]
      cases isGrouped (parse text) sites (q ++ p) with
      | true => exact ⟨⟨rfl, rfl⟩, by simp [Side.lead, Side.tail, Graft.treesOf]⟩
      | false => exact ⟨Graft.isExpression_ofTree hexpression, by simp [Side.lead, Side.tail, Graft.treesOf]⟩



lemma prefix_of_operandPaths {p : Path} (hchain : chain? (parse text) path = some chain)
    (hp : p ∈ operandPaths (parse text) path) : path <+: p := by
  obtain ⟨i, r, rfl⟩ := ((exists_operandPaths (shaped_parse text) hchain).2 p hp).1
  exact List.prefix_append _ _

/-- The tokens of a tree with comparisons in place of its chains are those of the tree with parts exchanged. -/
lemma Carried.leaves_ofTree (h : Carried (parse text) done q later)
    (hfound : ∀ p ∈ done, ∃ chain, chain? (parse text) p = some chain) (hsub : sites ⊆ done)
    (hsites : ∀ p ∈ done, q <+: p → p ∈ sites) (hpart : (parse text).sub? q = some part) :
    ((Graft.ofTree (swapAt? (parse text) sites) q part).tree true).leaves = later.leaves := by
  induction h generalizing part with
  | leaf h =>
    obtain rfl := Option.some.inj (h.symm.trans hpart)
    rfl
  | @node q kind children laters h hdone hlength _ ih =>
    obtain rfl := Option.some.inj (h.symm.trans hpart)
    have hleaves := Graft.leavesOf_take_ofTrees (swapAt? (parse text) sites) q hlength laters.length
      fun i _ child later hchild hlater =>
        ih i later hlater (fun p hp hle => hsites p hp ((List.prefix_append _ _).trans hle))
          (by rw [Tree.sub?_concat, h]; exact hchild)
    rw [List.take_length, List.take_of_length_le (by rw [Graft.length_treesOf_ofTrees, hlength])] at hleaves
    rw [Graft.ofTree_node (swapAt?_eq_none fun hmem => hdone (hsub hmem)), Graft.tree, Tree.leaves_node, Tree.leaves_node,
      hleaves]
  | @comparison q new right hdone hright hsame hlength hoperands _ ih =>
    obtain ⟨old, hchain, hmatcher, hoperator⟩ := hsame
    obtain ⟨exchange, subject, operands, hgraft, htokens, -, hleft, -, hrightLeaves⟩ := exists_swap_of_comparison hfound
      hsub (hsites q hdone List.prefix_rfl) hsites hpart hright hchain hmatcher hoperator fun i p operand hp hi =>
        ⟨hoperands i p operand hp hi, fun _ => ih i p operand hp hi fun p' hp' hle => hsites p' hp' ((prefix_of_operandPaths hchain (List.mem_of_getElem? hp)).trans hle)⟩
    rw [hgraft, leaves_comparison, ← hleft, ← hrightLeaves]
    simp [Graft.tree, Operator.leaves_tree, Operator.between, htokens]

/-- The chain at a path can be flattened whatever comes behind it. Its subject ends by itself, and so does its operand; one
that is put in parentheses has a closing one directly behind it. -/
def isLiftable (tree : Tree) (sites : List Path) (path : Path) : Bool :=
  let standsAt (place : Path) := (tree.sub? place).any (Tree.stands (tree.inHead false path))
  match operandPaths tree path with
  | [] => false
  | subject :: operands => standsAt subject && operands.all fun place =>
      bif isGrouped tree sites place then (tree.behind place).head? == some ⟨.rparen, ")"⟩ else standsAt place

/-- No operator and no suffix binds a chain. -/
lemma seats_of_chain? {kind : Kind} {children : List Tree} {i : Nat}
    (h : (parse text).sub? q = some (.node kind children)) (hchain : chain? (parse text) (q ++ [i]) = some chain) :
    kind.seats = true := by
  obtain ⟨call, _, _, _, _, links⟩ := chain?_eq_some_iff.1 hchain
  have hloose := links.loose
  rw [Tree.ownerKind?_concat, h, Option.map_some, Option.any_some] at hloose
  have hrank : kind.rank ≠ 0 := by
    by_cases hsignature : kind.holdsSignature = true
    · cases kind <;> first | decide | cases hsignature
    · obtain ⟨hpath, hplace⟩ := Part.inPlace_of_part? links.part
      have hchild : call.tree ∈ children := by
        have hsub : (parse text).sub? (q ++ [i]) = some call.tree := hpath ▸ hplace
        rw [Tree.sub?_concat, h] at hsub
        exact List.mem_of_getElem? hsub
      obtain ⟨hnode, hkind⟩ := links.isCall
      have hmem : call.tree.bare.hollow ∈ Tree.hollowOf (Tree.bareOf children) := by
        rw [Tree.hollowOf_eq_map]
        exact List.mem_map_of_mem (Tree.bare_mem_bareOf hchild hnode)
      have hle := ((Tree.sound_parse text).fits h).rank (by simpa using hsignature) _ hmem (by simpa using hnode)
      rw [Tree.rank_hollow _ (by simpa using hnode), Tree.kind_bare, show call.tree.kind = .callExpr from hkind] at hle
      have hone : Kind.rank .callExpr = 1 := rfl
      omega
  rw [Kind.seats, show bindsTightly kind = false from hloose, Bool.not_false, Bool.and_true, bne_iff_ne]
  exact hrank

/-- What is shown of the parts of a text: of tokens, of nodes by what is shown of their children, and of chains by what is
shown of their operands. -/
lemma chain_induction {motive : Path → Tree → Prop} (hfound : ∀ p ∈ sites, ∃ chain, chain? (parse text) p = some chain)
    (leaf : ∀ q token, motive q (.leaf token))
    (node : ∀ q kind children, (parse text).sub? q = some (.node kind children) → q ∉ sites →
      (∀ i child, children[i]? = some child → motive (q ++ [i]) child) → motive q (.node kind children))
    (site : ∀ q part chain, (parse text).sub? q = some part → q ∈ sites → chain? (parse text) q = some chain →
      (∀ p ∈ operandPaths (parse text) q, ∀ operand, (parse text).sub? p = some operand → motive p operand) →
        motive q part)
    (hpart : (parse text).sub? q = some part) : motive q part := by
  induction hsize : sizeOf part using Nat.strong_induction_on generalizing q part with
  | _ n ih =>
    subst hsize
    by_cases hq : q ∈ sites
    · obtain ⟨chain, hchain⟩ := hfound q hq
      refine site q part chain hpart hq hchain fun p hp operand hoperand => ih _ ?_ hoperand rfl
      obtain ⟨i, r, rfl⟩ := ((exists_operandPaths (shaped_parse text) hchain).2 p hp).1
      rw [Tree.sub?_append_some hpart] at hoperand
      exact Tree.sizeOf_lt_of_sub? hoperand
    · cases part with
      | leaf token => exact leaf q token
      | node kind children =>
        refine node q kind children hpart hq fun i child hchild => ih _ ?_ ?_ rfl
        · exact Tree.sizeOf_lt_of_mem kind (List.mem_of_getElem? hchild)
        · rw [Tree.sub?_concat, hpart]
          exact hchild

/-- The parts that are exchanged for comparisons fit, if their chains can be flattened. -/
lemma fits_ofTree {seated : Bool} (hfound : ∀ p ∈ sites, ∃ chain, chain? (parse text) p = some chain)
    (hlift : ∀ p ∈ sites, isLiftable (parse text) sites p = true)
    (hpart : (parse text).sub? q = some part) (hseat : q ∈ sites → seated = true) :
    (Graft.ofTree (swapAt? (parse text) sites) q part).Fits seated ((parse text).inHead false q)
      ((parse text).behind q) := by
  refine chain_induction (motive := fun q part => ∀ seated, (q ∈ sites → seated = true) →
    (Graft.ofTree (swapAt? (parse text) sites) q part).Fits seated ((parse text).inHead false q) ((parse text).behind q))
    hfound (fun q token _ _ => trivial) (fun q kind children h hq ih seated hseat => ?_)
    (fun q part chain hpart hq hchain ih seated hseat => ?_) hpart seated hseat
  · rw [Graft.ofTree_node (swapAt?_eq_none hq)]
    refine Graft.fitsOf_of_getElem? fun i graft hgraft => ?_
    rw [Graft.getElem?_ofTrees, Nat.zero_add] at hgraft
    obtain ⟨child, hchild, rfl⟩ := Option.map_eq_some_iff.1 hgraft
    have hfits := ih i child hchild kind.seats fun hmem => by
      obtain ⟨chain, hchain⟩ := hfound _ hmem
      exact seats_of_chain? h hchain
    rw [Tree.inHead_concat h hchild, Tree.behind_concat h hchild] at hfits
    rwa [Graft.treesOf_drop, Graft.treesOf_ofTrees]
  · obtain ⟨call', member, subject', argument, matching, links⟩ := chain?_eq_some_iff.1 hchain
    obtain ⟨dots, more, hshape⟩ := links.exists_shape hpart
    have hpaths := links.operandPaths_eq
    rw [links.subject_path] at hpaths
    have hsubjectPart : (parse text).sub? (q ++ [0, 0]) = some subject'.tree := by
      rw [Tree.sub?_append_some hpart, hshape]
      rfl
    have hsubject := ih _ (by rw [hpaths]; exact List.mem_cons_self) _ hsubjectPart false fun hmem =>
      absurd (links.subject_path ▸ hmem) (links.subject_not_mem hfound)
    have hhead : (parse text).inHead false (q ++ [0, 0]) = (parse text).inHead false q := by
      have hmember : (parse text).sub? (q ++ [0]) = some (.node .memberExpr (subject'.tree :: dots)) := by
        rw [Tree.sub?_concat, hpart, hshape]
        rfl
      rw [show q ++ [0, 0] = q ++ [0] ++ [0] by simp, Tree.inHead_concat hmember rfl,
        Tree.inHead_concat (hshape ▸ hpart) rfl]
      rfl
    have hleaves : part.leaves = subject'.tree.leaves ++ part.behind [0, 0] := by
      rw [hshape]
      simp [Tree.behind]
    have hold : part.isNode = true ∧ part.kind = .callExpr := by
      rw [hshape]
      exact ⟨rfl, rfl⟩
    have hlift := hlift q hq
    rw [isLiftable] at hlift
    rw [hhead, Tree.behind_append hpart] at hsubject
    have hflattens := flattens_ofTree hfound hq links hpart
    generalize Graft.ofTree (swapAt? (parse text) sites) q part = graft at hflattens
    cases hflattens with
    | @literal operator literal front back _ hliteral hpaths hfront =>
      have hall : ∀ matcher ∈ Matcher.all, ∀ literal ∈ matcher.literal?,
          [Kind.trueKw, .falseKw, .nilKw].contains literal.kind = true := by decide
      simp only [hpaths, List.all_nil, Bool.and_true, hsubjectPart, Option.any_some] at hlift
      refine ⟨⟨hseat hq, hold.1, hold.2, ?_⟩, ?_, trivial, ⟨dots, more, ?_⟩, ?_, rfl, ?_⟩
      · simpa [Graft.tree_ofTree, hfront] using hleaves
      · simpa [hfront] using hsubject
      · rw [Graft.tree_ofTree, hshape]
      · rwa [Graft.tree_ofTree]
      · exact hall _ links.matcher_mem _ hliteral
    | @operand operator p operand front _ hliteral hpaths hoperand hexpression hfront hargued hinHead =>
      have hplace : (parse text).sub? (q ++ p) = some operand := by rw [Tree.sub?_append_some hpart, hoperand]
      have hright := ih (q ++ p) (by rw [hpaths]; simp) operand hplace
        (if isGrouped (parse text) sites (q ++ p) then Side.group else .plain).seated fun hmem => by
          rw [isGrouped, decide_eq_true hmem, Bool.true_or]
          rfl
      rw [hinHead, Tree.behind_append hpart] at hright
      simp only [hpaths, List.all_cons, List.all_nil, Bool.and_true, hsubjectPart, hplace, Option.any_some,
        Bool.and_eq_true, Tree.behind_append hpart] at hlift
      refine ⟨⟨hseat hq, hold.1, hold.2, ?_⟩, ?_, ⟨?_, trivial⟩, ⟨dots, more, ?_⟩, ?_, ?_⟩
      · simpa [Graft.tree_ofTree, Graft.treesOf, hfront] using hleaves
      · simpa [Graft.tree_ofTree, Graft.treesOf, hfront] using hsubject
      · simpa [Graft.treesOf] using hright
      · rw [Graft.tree_ofTree, hshape]
      · rw [Graft.tree_ofTree]
        exact hlift.1
      · have hlift := hlift.2
        cases hcase : isGrouped (parse text) sites (q ++ p) with
        | true =>
          rw [hcase] at hlift
          exact ⟨operand, by simp [Graft.treesOf, Graft.tree_ofTree], hargued, by simpa using hlift⟩
        | false =>
          rw [hcase] at hlift
          exact ⟨operand, by simp [Graft.treesOf, Graft.tree_ofTree], hlift, hargued⟩

/-- The sites of a text that do not come behind a place. -/
def upTo (sites : List Path) (path : Path) : List Path := sites.filter fun site => !decide (Path.Precedes path site)

lemma mem_upTo {site : Path} : site ∈ upTo sites path ↔ site ∈ sites ∧ ¬ Path.Precedes path site := by
  simp [upTo]

/-- Where a chain that is in no other one is exchanged, and those before it, the tokens up to its end are those of the
tree with all comparisons, and what comes behind is as it was at first. -/
lemma Carried.exists_reached {target goal : Tree} {r : Path} (h : Carried (parse text) done q later)
    (hfound : ∀ p ∈ done, ∃ chain, chain? (parse text) p = some chain) (hpart : (parse text).sub? q = some part)
    (hr : q ++ r ∈ done) (houter : ∀ p ∈ done, p <+: q ++ r → p = q ++ r) (hlater : later.sub? r ≠ none)
    (htarget : (parse text).sub? (q ++ r) = some target)
    (hgoal : (Graft.ofTree (swapAt? (parse text) (upTo done (q ++ r))) (q ++ r) target).tree true = goal) :
    ∃ front, later.leaves = front ++ (goal.leaves ++ later.behind r) ∧
      ((Graft.ofTree (swapAt? (parse text) (upTo done (q ++ r))) q part).tree true).sub? r = some goal ∧
      ((Graft.ofTree (swapAt? (parse text) (upTo done (q ++ r))) q part).tree true).leaves =
        front ++ (goal.leaves ++ part.behind r) ∧
      ((Graft.ofTree (swapAt? (parse text) (upTo done (q ++ r))) q part).tree true).behind r = part.behind r := by
  have hsub : upTo done (q ++ r) ⊆ done := fun p hp => (mem_upTo.1 hp).1
  induction r generalizing q part later with
  | nil =>
    simp only [List.append_nil] at *
    obtain rfl := Option.some.inj (hpart.symm.trans htarget)
    have hleaves := h.leaves_ofTree hfound hsub
      (fun p hp hle => mem_upTo.2 ⟨hp, fun hprecedes => hprecedes.apart.1 hle⟩) hpart
    rw [hgoal] at hleaves ⊢
    exact ⟨[], by simp [Tree.behind, hleaves], Tree.sub?_nil _, by simp [Tree.behind], by simp [Tree.behind]⟩
  | cons i r ih =>
    have hdone : q ∉ done := fun hmem => by simpa using houter q hmem (List.prefix_append _ _)
    cases h with
    | leaf => simp [Tree.sub?] at hlater
    | comparison hmem => exact absurd hmem hdone
    | @node _ kind children laters hnode _ hlength hlaters =>
      obtain rfl := Option.some.inj (hnode.symm.trans hpart)
      obtain ⟨later, hi⟩ : ∃ later, laters[i]? = some later := by
        cases hi : laters[i]? with
        | none => simp [Tree.sub?_node_cons, hi] at hlater
        | some later => exact ⟨later, rfl⟩
      obtain ⟨child, hchild⟩ : ∃ child, children[i]? = some child :=
        ⟨_, List.getElem?_eq_getElem (hlength ▸ (List.getElem?_eq_some_iff.1 hi).1)⟩
      have happend : q ++ i :: r = q ++ [i] ++ r := by simp
      rw [Tree.sub?_node_cons, hi, Option.bind_some] at hlater
      rw [happend] at hr houter htarget hgoal hsub ⊢
      have hcarried {j : Nat} {child : Tree} (hchild : children[j]? = some child) :
          (parse text).sub? (q ++ [j]) = some child := by rw [Tree.sub?_concat, hnode]; exact hchild
      obtain ⟨front, hfront, hsubAt, hleavesAt, hbehindAt⟩ :=
        ih (hlaters i later hi) (hcarried hchild) hr houter hlater htarget hgoal hsub
      rw [Graft.ofTree_node (swapAt?_eq_none fun hmem => hdone (hsub hmem)), Graft.tree]
      set swaps := swapAt? (parse text) (upTo done (q ++ [i] ++ r))
      -- before the part all chains are exchanged, and behind it none
      have hbefore : Tree.leavesOf ((Graft.treesOf true (Graft.ofTrees swaps q 0 children)).take i) =
          Tree.leavesOf (laters.take i) := by
        refine Graft.leavesOf_take_ofTrees _ _ hlength i fun j hj child later hchild hlater => ?_
        refine (hlaters j later hlater).leaves_ofTree hfound hsub (fun p hp hle => mem_upTo.2 ⟨hp, ?_⟩) (hcarried hchild)
        obtain ⟨p, rfl⟩ := hle
        rw [List.append_assoc, List.append_assoc, Path.append_precedes_append]
        simp only [List.singleton_append, Path.cons_precedes_cons]
        omega
      have hafter : (Graft.treesOf true (Graft.ofTrees swaps q 0 children)).drop (i + 1) = children.drop (i + 1) := by
        rw [← Graft.treesOf_drop, Graft.drop_ofTrees]
        refine Graft.treesOf_ofTrees_of_none _ _ _ fun j hj p hle => swapAt?_eq_none fun hmem => (mem_upTo.1 hmem).2 ?_
        obtain ⟨p, rfl⟩ := hle
        rw [List.append_assoc, List.append_assoc, Path.append_precedes_append]
        simp only [List.singleton_append, Path.cons_precedes_cons]
        omega
      have hnews : (Graft.treesOf true (Graft.ofTrees swaps q 0 children))[i]? =
          some ((Graft.ofTree swaps (q ++ [i]) child).tree true) := by
        rw [Graft.treesOf_eq_map, List.getElem?_map, Graft.getElem?_ofTrees, hchild, Nat.zero_add]
        rfl
      refine ⟨Tree.leavesOf (laters.take i) ++ front, ?_, ?_, ?_, ?_⟩
      · simp [Tree.behind, hi, Tree.leavesOf_of_getElem? hi, hfront]
      · rw [Tree.sub?_node_cons, hnews, Option.bind_some, hsubAt]
      · simp [Tree.behind, hchild, Tree.leavesOf_of_getElem? hnews, hbefore, hafter, hleavesAt]
      · simp [Tree.behind, hnews, hchild, hafter, hbehindAt]

end Rules

end SwiftTidy

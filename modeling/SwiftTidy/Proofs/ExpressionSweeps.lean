import SwiftTidy.Proofs.ClauseSweeps

/-!
# Sweeps of expressions

The clauses of an expression stand in its closures. A sweep of the expression sweeps each closure for itself and leaves
everything else alone (`Rules.tree_sweep`). As chains are not told by what their closures hold, the chain in a swept
call has the swept operands, and the comparison that takes its place is the swept comparison (`Rules.Rewrites.sweep`).
-/

namespace SwiftTidy

namespace Tree

/-! ## Closures within expressions -/

mutual

/-- A tree in which the children of closures are replaced. -/
def mapClosures (inside : List Tree → List Tree) : Tree → Tree
  | .leaf token => .leaf token
  | .node kind children =>
    .node kind (if kind = .closureExpr then inside children else mapClosuresOf inside children)

/-- Several trees in a row in which the children of closures are replaced. -/
def mapClosuresOf (inside : List Tree → List Tree) : List Tree → List Tree
  | [] => []
  | tree :: rest => tree.mapClosures inside :: mapClosuresOf inside rest

end

variable {inside : List Tree → List Tree} {tree : Tree}

lemma mapClosuresOf_eq_map (inside : List Tree → List Tree) (row : List Tree) :
    mapClosuresOf inside row = row.map (mapClosures inside) := by
  induction row with
  | nil => rw [mapClosuresOf, List.map_nil]
  | cons tree rest ih => rw [mapClosuresOf, ih, List.map_cons]

@[simp] lemma mapClosures_leaf (token : Token) : (Tree.leaf token).mapClosures inside = .leaf token := by rw [mapClosures]

lemma mapClosures_node {kind : Kind} (h : kind ≠ .closureExpr) (children : List Tree) :
    (Tree.node kind children).mapClosures inside = .node kind (children.map (mapClosures inside)) := by
  rw [mapClosures, if_neg h, mapClosuresOf_eq_map]

lemma mapClosures_closure (children : List Tree) :
    (Tree.node .closureExpr children).mapClosures inside = .node .closureExpr (inside children) := by
  rw [mapClosures, if_pos rfl]

@[simp] lemma isNode_mapClosures (tree : Tree) : (tree.mapClosures inside).isNode = tree.isNode := by
  cases tree with
  | leaf token => rw [mapClosures]
  | node kind children => rw [mapClosures, isNode, isNode]

@[simp] lemma kind_mapClosures (tree : Tree) : (tree.mapClosures inside).kind = tree.kind := by
  cases tree with
  | leaf token => rw [mapClosures]
  | node kind children => rw [mapClosures, Tree.kind, Tree.kind]

lemma filter_map_mapClosures {p : Tree → Bool} (h : ∀ tree, p (mapClosures inside tree) = p tree) (row : List Tree) :
    (row.map (mapClosures inside)).filter p = (row.filter p).map (mapClosures inside) := by
  rw [List.filter_map]
  exact congrArg _ (List.filter_congr fun tree _ => h tree)

lemma childNodes_mapClosures (h : tree.kind ≠ .closureExpr) :
    (tree.mapClosures inside).childNodes = tree.childNodes.map (mapClosures inside) := by
  cases tree with
  | leaf token => rw [mapClosures_leaf]; rfl
  | node kind children =>
    have h : kind ≠ .closureExpr := h
    rw [mapClosures_node h]
    exact filter_map_mapClosures isNode_mapClosures children

lemma childExpressions_mapClosures (h : tree.kind ≠ .closureExpr) :
    (tree.mapClosures inside).childExpressions = tree.childExpressions.map (mapClosures inside) := by
  rw [childExpressions, childNodes_mapClosures h]
  exact filter_map_mapClosures (fun tree => by rw [kind_mapClosures]) _

/-- The arguments of a call. -/
def arguments (tree : Tree) : List Tree :=
  match tree.childNodes.find? fun child => child.kind == .argumentList with
  | some list => list.childNodes.filter fun child => child.kind == .argument
  | none => []

lemma arguments_mapClosures (h : tree.kind ≠ .closureExpr) :
    (tree.mapClosures inside).arguments = tree.arguments.map (mapClosures inside) := by
  have hfind : (tree.mapClosures inside).childNodes.find? (fun child => child.kind == .argumentList) =
      (tree.childNodes.find? fun child => child.kind == .argumentList).map (mapClosures inside) := by
    rw [childNodes_mapClosures h, List.find?_map]
    congr 2
    funext child
    simp
  rw [arguments, arguments, hfind]
  cases hlist : tree.childNodes.find? fun child => child.kind == .argumentList with
  | none => rfl
  | some list =>
    have hkind : list.kind = .argumentList := by simpa using List.find?_some hlist
    simp only [Option.map_some]
    rw [childNodes_mapClosures (by simp [hkind])]
    exact filter_map_mapClosures (fun tree => by rw [kind_mapClosures]) _

end Tree

namespace Rules

open SwiftTidy.Tree Edit

variable {closures : Bool} {tree : Tree}

/-! ## Rows of trees -/

/-- The places of the clauses of several trees in a row, the first of which is number `i`. -/
def clausesOf (closures : Bool) (i : Nat) : List Tree → List Path
  | [] => []
  | tree :: rest => (clauses closures tree).map ([i] ++ ·) ++ clausesOf closures (i + 1) rest

variable {back : List Tree} {kind : Kind}

lemma filter_nodePathsOf (front : List Tree) (hshaped : (Tree.node kind (front ++ back)).Shaped) (hkind : kind.rank ≠ 3) :
    (nodePathsOf front.length back).filter ((voidReturn closures).HasSite (.node kind (front ++ back)) ·) =
      clausesOf closures front.length back := by
  induction back generalizing front with
  | nil => rfl
  | cons child rest ih =>
    have hrest := ih (front ++ [child]) (by simpa using hshaped)
    rw [List.length_append, List.length_singleton, List.append_assoc, List.singleton_append] at hrest
    have hnot : ¬ (voidReturn closures).HasSite (.node kind (front ++ child :: rest)) [front.length] := by
      intro hsite
      obtain ⟨o, k, before, clause, after, hpath, ho, hrank⟩ := exists_signature hshaped hsite
      obtain rfl : o = [] := by simpa using congrArg List.length hpath
      obtain ⟨rfl, -⟩ := Tree.node.inj (Option.some.inj ho)
      exact hkind hrank
    rw [nodePathsOf, List.filter_append, hrest, clausesOf, List.filter_map]
    congr 2
    exact List.filter_congr fun r _ => decide_eq_decide.2
      (hasSite_append hshaped (sub?_node_length.trans (sub?_nil _)) hnot r)

lemma clauses_node {children : List Tree} (hshaped : (Tree.node kind children).Shaped) (hkind : kind.rank ≠ 3) :
    clauses closures (.node kind children) = clausesOf closures 0 children := by
  rw [clauses, nodePaths, List.filter_cons_of_neg (by simpa using not_hasSite_nil)]
  exact filter_nodePathsOf [] hshaped hkind

/-- Children with clauses in their closures are swept one by one. -/
lemma clear_clausesOf (front : List Tree)
    (hback : ∀ child ∈ back, child.Sturdy ∧ child.Shaped ∧ (child.isNode = true → child.kind.rank ≤ 1)) :
    (clear (.node kind (front ++ back)) (clausesOf closures front.length back)).tree =
      .node kind (front ++ back.map fun child => (sweep closures child).tree) := by
  induction back generalizing front with
  | nil => simp [clausesOf, keep]
  | cons child rest ih =>
    have hrest := ih (front ++ [child]) fun other hother => hback other (by simp [hother])
    rw [List.length_append, List.length_singleton, List.append_assoc, List.singleton_append] at hrest
    obtain ⟨hsturdy, hshaped, hrank⟩ := hback child (by simp)
    rw [clausesOf, tree_clear_append, hrest, List.append_assoc, List.singleton_append,
      (sweep_inside closures (sub?_node_length.trans (sub?_nil _)) hsturdy hshaped hrank).1, replaceAt_node_length]
    rfl

lemma trims_sweep (closures : Bool) (h : tree.Sturdy) (hshaped : tree.Shaped) : tree.Trims (sweep closures tree).tree := by
  have hcleared := cleared_sweep closures h hshaped
  obtain ⟨later, hlater, htrims, -⟩ := hcleared.trimming.part hcleared.trimming.root (sub?_nil tree)
  obtain rfl := Option.some.inj hlater
  exact htrims

/-- What a sweep makes of the children of a closure. -/
def sweepInside (closures : Bool) (children : List Tree) : List Tree :=
  (sweep closures (.node .closureExpr children)).tree.children

/-- A sweep of an expression sweeps each of its closures for itself. -/
theorem tree_sweep (closures : Bool) (tree : Tree) (h : tree.Sturdy) (hshaped : tree.Shaped)
    (hrank : tree.isNode = true → tree.kind.rank ≤ 1) :
    (sweep closures tree).tree = tree.mapClosures (sweepInside closures) := by
  cases tree with
  | leaf token =>
    rw [mapClosures_leaf]
    rfl
  | node kind children =>
    by_cases hclosure : kind = .closureExpr
    · subst hclosure
      obtain ⟨laters, hlaters, -⟩ := trims_node.1 (trims_sweep closures h hshaped)
      rw [mapClosures_closure, sweepInside, hlaters]
      rfl
    · have hkind : kind.rank ≤ 1 := hrank rfl
      have hholds : kind.holdsSignature = false := by
        cases kind <;> first | rfl | exact absurd rfl hclosure | simp [Kind.rank] at hkind
      have hchild : ∀ child ∈ children, child.Sturdy ∧ child.Shaped ∧ (child.isNode = true → child.kind.rank ≤ 1) := by
        intro child hmem
        refine ⟨h.child hmem, hshaped.child hmem, fun hnode => ?_⟩
        have hle := h.rank_le hholds hmem hnode
        omega
      rw [mapClosures_node hclosure, sweep, clauses_node hshaped (by omega)]
      refine (clear_clausesOf [] hchild).trans (congrArg (Tree.node kind) (List.map_congr_left fun child hmem => ?_))
      have hsize := sizeOf_lt_of_mem kind hmem
      obtain ⟨hsturdy, hshaped, hrank⟩ := hchild child hmem
      exact tree_sweep closures child hsturdy hshaped hrank
termination_by sizeOf tree

/-! ## Chains -/

namespace Expectation

/-- What a chain compares, as it is found in its call. -/
structure Operands (call : Tree) (chain : Chain) (member argument matching : Tree) : Prop where
  member_eq : call.childExpressions.head? = some member
  member_kind : member.kind = .memberExpr
  subject_eq : member.childExpressions.head? = some chain.subject
  argument_eq : call.arguments.head? = some argument
  argument_kind : argument.kind = .argument
  matching_eq : argument.childExpressions.head? = some matching
  matching_kind : matching.kind = .callExpr
  operand_eq : chain.argument? = matching.arguments.head?.bind fun first => first.childExpressions.head?

variable {call argument member matching child : Tree} {chain later : Chain} {kind : Kind} {path : Path}
  {row : List Tree}

lemma kind_of_mem_arguments (h : argument ∈ call.arguments) : argument.kind = .argument := by
  rw [Tree.arguments] at h
  split at h
  next list hlist => simpa using (List.mem_filter.1 h).2
  next => simp at h

lemma map_tree_arguments (part : Part) : part.arguments.map Part.tree = part.tree.arguments := by
  have hfind : part.tree.childNodes.find? (fun child => child.kind == .argumentList) =
      part.argumentList?.map Part.tree := by
    rw [← Part.map_tree_nodes, List.find?_map]
    rfl
  rw [Part.arguments, Tree.arguments, hfind]
  cases part.argumentList? with
  | none => rfl
  | some list =>
    simp only [Option.map_some]
    rw [← Part.map_tree_nodes, List.filter_map]
    rfl

lemma head?_arguments (part : Part) : part.tree.arguments.head? = part.arguments.head?.map Part.tree := by
  rw [← map_tree_arguments, List.head?_map]

lemma exists_operands (hchain : chain? tree path = some chain) (hcall : tree.sub? path = some call) :
    ∃ member argument matching, Operands call chain member argument matching := by
  obtain ⟨part, member, subject, argument, matching, links⟩ := chain?_eq_some_iff.1 hchain
  obtain rfl : ⟨path, call⟩ = part := by simpa [Tree.part?, hcall] using links.part
  have hargument : call.arguments.head? = some argument.tree := by
    rw [head?_arguments ⟨path, call⟩, links.arguments_eq]
    rfl
  refine ⟨member.tree, argument.tree, matching.tree, ?_, links.member_kind, ?_, hargument,
    kind_of_mem_arguments (List.mem_of_head? hargument), ?_, links.matching_isCall.2, ?_⟩
  · rw [Part.head?_childExpressions ⟨path, call⟩, links.member_eq]
    rfl
  · rw [Part.head?_childExpressions, links.subject_eq, links.subject_tree]
    rfl
  · rw [Part.head?_childExpressions, links.matching_eq]
    rfl
  · have hoperand := links.operand
    rw [operand?] at hoperand
    rw [head?_arguments]
    cases hfirst : matching.arguments.head? with
    | none => simpa [hfirst] using hoperand.symm
    | some first =>
      simp only [hfirst] at hoperand
      obtain ⟨value, hvalue, hargument⟩ : ∃ value, first.expression? = some value ∧ some value.tree = chain.argument? := by
        simpa using hoperand
      simp [Part.head?_childExpressions, hvalue, ← hargument]

variable {inside : List Tree → List Tree}

/-- The operands of a chain are told by its call, no matter what closures hold. -/
lemma Operands.mapClosures {member' argument' matching' : Tree} (h : Operands call chain member argument matching)
    (hkind : call.kind ≠ .closureExpr) (h' : Operands (call.mapClosures inside) later member' argument' matching') :
    later.subject = chain.subject.mapClosures inside ∧ later.argument? = chain.argument?.map (Tree.mapClosures inside) := by
  have hmember : member' = member.mapClosures inside := by
    have heq := h'.member_eq
    rw [childExpressions_mapClosures hkind, List.head?_map, h.member_eq] at heq
    exact (Option.some.inj heq).symm
  have hsubject : later.subject = chain.subject.mapClosures inside := by
    have heq := h'.subject_eq
    rw [hmember, childExpressions_mapClosures (by simp [h.member_kind]), List.head?_map, h.subject_eq] at heq
    exact (Option.some.inj heq).symm
  have hargument : argument' = argument.mapClosures inside := by
    have heq := h'.argument_eq
    rw [arguments_mapClosures hkind, List.head?_map, h.argument_eq] at heq
    exact (Option.some.inj heq).symm
  have hmatching : matching' = matching.mapClosures inside := by
    have heq := h'.matching_eq
    rw [hargument, childExpressions_mapClosures (by simp [h.argument_kind]), List.head?_map, h.matching_eq] at heq
    exact (Option.some.inj heq).symm
  refine ⟨hsubject, ?_⟩
  rw [h'.operand_eq, h.operand_eq, hmatching, arguments_mapClosures (by simp [h.matching_kind]), List.head?_map]
  cases hfirst : matching.arguments.head? with
  | none => rfl
  | some first =>
    have hkind := kind_of_mem_arguments (List.mem_of_head? hfirst)
    simp only [Option.map_some, Option.bind_some]
    rw [childExpressions_mapClosures (by simp [hkind]), List.head?_map]

lemma right?_mapClosures (hmatcher : later.matcher = chain.matcher)
    (hargument : later.argument? = chain.argument?.map (Tree.mapClosures inside)) :
    later.right? = chain.right?.map (Tree.mapClosures inside) := by
  rw [Chain.right?, Chain.right?, hmatcher, hargument]
  cases chain.matcher.literal? with
  | some literal => simp [mapClosures_node]
  | none =>
    cases chain.argument? with
    | none => rfl
    | some argument =>
      have hneeds : needsParentheses (argument.mapClosures inside) = needsParentheses argument := by
        rw [needsParentheses, needsParentheses, kind_mapClosures]
      simp only [Option.map_some, hneeds]
      split <;> simp [mapClosures_node]

lemma comparison_mapClosures (hoperator : later.operator = chain.operator)
    (hsubject : later.subject = chain.subject.mapClosures inside) (right : Tree) :
    later.comparison (right.mapClosures inside) = (chain.comparison right).mapClosures inside := by
  rw [comparison_eq, comparison_eq, mapClosures_node (by simp), hsubject, Chain.between, Chain.between, hoperator]
  simp [Function.comp_def]

/-! ## Comparisons -/

/-- Nodes of most kinds may hold any expressions. -/
lemma fits_of_isExpression (hrank : kind.rank = 1) (hkind : kind.holdsSignature = false)
    (h : ∀ child ∈ row, child.isNode = true → child.isExpression = true) : Fits kind (hollowOf (bareOf row)) := by
  have hmem : ∀ child ∈ hollowOf (bareOf row), child.isNode = true → child.kind.rank = 1 := by
    intro child hchild hnode
    rw [hollowOf_eq_map, bareOf_eq_map, List.map_map] at hchild
    obtain ⟨tree, htree, rfl⟩ := List.mem_map.1 hchild
    have hexpression := h tree (List.mem_filter.1 htree).1 (by simpa using hnode)
    rw [Function.comp_apply, hollow_bare_of_isExpression hexpression]
    rfl
  refine ⟨fun _ child hchild hnode => ?_, fun hclosure => ?_, fun front signature back hrow hnode hsignature => ?_⟩
  · rw [hmem child hchild hnode, hrank]
    decide
  · simp [hclosure, Kind.holdsSignature] at hkind
  · have hone := hmem signature (by simp [hrow]) hnode
    omega

lemma sturdy_of_mem_childNodes (h : tree.Sturdy) (hchild : child ∈ tree.childNodes) : child.Sturdy := by
  cases tree with
  | leaf token => simp [childNodes, Tree.children] at hchild
  | node kind children => exact h.child (List.mem_filter.1 hchild).1

lemma sturdy_of_mem_childExpressions (h : tree.Sturdy) (hchild : child ∈ tree.childExpressions) :
    child.Sturdy ∧ child.isExpression = true := by
  obtain ⟨hnode, hkind⟩ := List.mem_filter.1 hchild
  exact ⟨sturdy_of_mem_childNodes h hnode, by rw [isExpression, (List.mem_filter.1 hnode).2, hkind]; rfl⟩

lemma sturdy_of_mem_arguments (h : tree.Sturdy) (hargument : argument ∈ tree.arguments) : argument.Sturdy := by
  rw [Tree.arguments] at hargument
  split at hargument
  next list hlist =>
    exact sturdy_of_mem_childNodes (sturdy_of_mem_childNodes h (List.mem_of_find?_eq_some hlist))
      (List.mem_filter.1 hargument).1
  next => simp at hargument

lemma Operands.sturdy (h : Operands call chain member argument matching) (hsturdy : call.Sturdy) :
    (chain.subject.Sturdy ∧ chain.subject.isExpression = true) ∧
      ∀ operand, chain.argument? = some operand → operand.Sturdy ∧ operand.isExpression = true := by
  have hmember := (sturdy_of_mem_childExpressions hsturdy (List.mem_of_head? h.member_eq)).1
  have hargument := sturdy_of_mem_arguments hsturdy (List.mem_of_head? h.argument_eq)
  have hmatching := (sturdy_of_mem_childExpressions hargument (List.mem_of_head? h.matching_eq)).1
  refine ⟨sturdy_of_mem_childExpressions hmember (List.mem_of_head? h.subject_eq), fun operand hoperand => ?_⟩
  rw [h.operand_eq, Option.bind_eq_some_iff] at hoperand
  obtain ⟨first, hfirst, hoperand⟩ := hoperand
  have hfirst := sturdy_of_mem_arguments hmatching (List.mem_of_head? hfirst)
  exact sturdy_of_mem_childExpressions hfirst (List.mem_of_head? hoperand)

lemma sturdy_node_of_isExpression (hrank : kind.rank = 1) (hkind : kind.holdsSignature = false)
    (h : ∀ child ∈ row, child.Sturdy ∧ (child.isNode = true → child.isExpression = true)) :
    (Tree.node kind row).Sturdy := by
  refine .node (fits_of_isExpression hrank hkind fun child hchild => (h child hchild).2) ?_
    fun child hchild => (h child hchild).1
  have hclosure : kind ≠ .closureExpr := by
    rintro rfl
    simp [Kind.holdsSignature] at hkind
  simp [isClosed, hclosure]

/-- A comparison is put together from its operands soundly. -/
lemma sturdy_comparison {right : Tree} (hchain : chain? tree path = some chain) (hcall : tree.sub? path = some call)
    (h : call.Sturdy) (hright : chain.right? = some right) : (chain.comparison right).Sturdy := by
  obtain ⟨member, argument, matching, hoperands⟩ := exists_operands hchain hcall
  obtain ⟨⟨hsubject, hexpression⟩, hargument⟩ := hoperands.sturdy h
  have hleaf : ∀ token, (Tree.leaf token).Sturdy ∧
      ((Tree.leaf token).isNode = true → (Tree.leaf token).isExpression = true) :=
    fun token => ⟨.leaf token, by simp [isNode]⟩
  have hrightSturdy : right.Sturdy ∧ (right.isNode = true → right.isExpression = true) := by
    obtain ⟨_, _, _, _, _, links⟩ := chain?_eq_some_iff.1 hchain
    rcases right?_cases links hright with ⟨literal, -, -, rfl⟩ | ⟨operand, hoperand, rfl | ⟨-, rfl⟩⟩
    · exact ⟨sturdy_node_of_isExpression rfl rfl (by simpa using hleaf literal), fun _ => rfl⟩
    · exact ⟨(hargument right hoperand).1, fun _ => (hargument right hoperand).2⟩
    · refine ⟨sturdy_node_of_isExpression rfl rfl ?_, fun _ => rfl⟩
      simp only [List.mem_cons, List.not_mem_nil, or_false]
      rintro child (rfl | rfl | rfl)
      · exact hleaf _
      · exact ⟨(hargument child hoperand).1, fun _ => (hargument child hoperand).2⟩
      · exact hleaf _
  rw [comparison_eq]
  refine sturdy_node_of_isExpression rfl rfl ?_
  simp only [List.mem_cons, List.mem_append, List.mem_map, List.not_mem_nil, or_false]
  rintro child (rfl | ⟨token, -, rfl⟩ | rfl)
  · exact ⟨hsubject, fun _ => hexpression⟩
  · exact hleaf token
  · exact hrightSturdy

end Expectation

open Expectation

lemma isExpression_of_chain? {path : Path} {chain : Chain} {call : Tree} (hchain : chain? tree path = some chain)
    (hcall : tree.sub? path = some call) : call.isExpression = true ∧ call.kind = .callExpr := by
  have hmember := callsMember_of_chain? hchain hcall
  simp only [callsMember, Bool.and_eq_true, beq_iff_eq] at hmember
  obtain ⟨⟨hnode, hkind⟩, -⟩ := hmember
  exact ⟨by rw [isExpression, hnode, hkind]; rfl, hkind⟩

/-- A rewrite is one after a sweep as well, at the place where the chain is then. -/
theorem Rewrites.sweep (closures : Bool) {later : Tree} {q : Path} (hrewrites : Rewrites q tree later) (h : tree.Sturdy)
    (hshaped : tree.Shaped) (hroot : tree.kind.rank ≠ 3) :
    later.Sturdy ∧ ∃ q', (Rules.sweep closures tree).moved q = some q' ∧
      Rewrites q' (Rules.sweep closures tree).tree (Rules.sweep closures later).tree ∧
      ∀ s, ¬ q <+: s → (Rules.sweep closures later).moved s = (Rules.sweep closures tree).moved s := by
  obtain ⟨chain, right, hne, hchain, hright, rfl⟩ := hrewrites
  obtain ⟨call, hcall⟩ := exists_part_of_chain? hchain
  obtain ⟨hexpression, hkind⟩ := isExpression_of_chain? hchain hcall
  obtain ⟨part, _, _, _, _, links⟩ := chain?_eq_some_iff.1 hchain
  obtain rfl : ⟨q, call⟩ = part := by simpa [Tree.part?, hcall] using links.part
  have hcallSturdy := h.sub? hcall
  have hcallShaped := hshaped.sub? hcall
  have hnew := sturdy_comparison hchain hcall hcallSturdy hright
  have hnewShaped := links.shaped_comparison hcallShaped hright
  obtain ⟨q', hmoved, hsub, htree, hsame⟩ := sweep_replaceAt closures h hshaped hroot hcall hexpression
    (rfl : (chain.comparison right).isExpression = true) hnew hnewShaped
  refine ⟨h.replaceAt hcall hexpression rfl hnew, q', hmoved, ?_, hsame⟩
  -- the chain is found again
  have hcleared := cleared_sweep closures h hshaped
  obtain ⟨call', hcall', htrims, howner⟩ := hcleared.trimming.part hmoved hcall
  obtain rfl := Option.some.inj (hsub.symm.trans hcall')
  have hrel := rel_chain? hcall hsub htrims.echo howner hcallShaped
  rw [hchain] at hrel
  rcases rel_cases hrel with ⟨hnone, -⟩ | ⟨chain', swept, hsome, hswept, hechoes⟩
  · simp at hnone
  obtain rfl := Option.some.inj hsome
  -- with swept operands
  obtain ⟨member, argument, matching, hoperands⟩ := exists_operands hchain hcall
  obtain ⟨member', argument', matching', hoperands'⟩ := exists_operands hswept hsub
  have hone : call.kind.rank ≤ 1 := by simp [hkind, Kind.rank]
  rw [tree_sweep closures call hcallSturdy hcallShaped fun _ => hone] at hoperands'
  obtain ⟨hsubject, hargument⟩ := hoperands.mapClosures (by simp [hkind]) hoperands'
  have hright' := right?_mapClosures hechoes.matcher hargument
  rw [hright] at hright'
  refine ⟨swept, right.mapClosures (sweepInside closures), ?_, hswept, hright', ?_⟩
  · rintro rfl
    exact hne (List.length_eq_zero_iff.1 (hcleared.relocation.length hmoved).symm)
  · rw [htree, comparison_mapClosures hechoes.operator hsubject,
      tree_sweep closures _ hnew hnewShaped fun _ => le_rfl]

end Rules

end SwiftTidy

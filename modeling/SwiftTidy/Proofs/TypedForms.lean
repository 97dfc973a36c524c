import SwiftTidy.Proofs.CallForms
import SwiftTidy.Proofs.NodeStarts
import SwiftTidy.Proofs.Partings
import SwiftTidy.Proofs.VoidClauses

/-!
# What can be told of nodes by their kinds

The parts of a call, of an operation and of a return clause are picked from the children of a node by their places and
kinds. That these are the right ones depends on how the nodes are built. An operation begins with an expression, and
there is at most one more node in it. A return clause has an arrow and at most a type (`Grammar.OperandForm`), and it
stands in a signature or in a subscript (`Grammar.exists_owner_of_clause`). So the trees of all texts can be relied on
(`typed_parse`).
-/

namespace SwiftTidy

namespace Tree

/-! ## Rows without trivia -/

lemma filter_isNode_bareOf (row : List Tree) : (bareOf row).filter isNode = (row.filter isNode).map bare := by
  rw [bareOf_eq_map, List.filter_map, List.filter_filter]
  congr 1
  refine List.filter_congr fun tree _ => ?_
  cases hnode : tree.isNode with
  | false => simp [hnode]
  | true => simp [hnode, isTriviaLeaf_of_isNode hnode]

lemma length_filter_isNode_bareOf (row : List Tree) :
    ((bareOf row).filter isNode).length = (row.filter isNode).length := by
  rw [filter_isNode_bareOf, List.length_map]

lemma filter_isNode_map_leaf (tokens : List Token) : (tokens.map leaf).filter isNode = [] := by
  simp [List.filter_eq_nil_iff, isNode]

lemma eq_leaf_of_bare {tree : Tree} {token : Token} (h : tree.bare = leaf token) : tree = leaf token := by
  cases tree with
  | leaf other => simpa [bare] using h
  | node kind children => simp [bare] at h

lemma map_kind_bare (row : List Tree) : (row.map bare).map kind = row.map kind := by simp [Function.comp_def]

/-- A row that does not begin with trivia begins with the same tree when its trivia goes. -/
lemma exists_cons_of_bareOf {row rest : List Tree} {first : Tree} (h : bareOf row = first :: rest)
    (hstart : ∀ token ∈ (leavesOf row).head?, token.isTrivia = false) :
    ∃ tree others, row = tree :: others ∧ tree.bare = first ∧ bareOf others = rest := by
  cases row with
  | nil => simp at h
  | cons tree others =>
    cases tree with
    | leaf token =>
      have htoken : token.isTrivia = false := hstart token (by simp)
      rw [bareOf_leaf_cons, htoken] at h
      obtain ⟨rfl, rfl⟩ := List.cons.inj h
      exact ⟨_, _, rfl, by simp [bare], rfl⟩
    | node kind children =>
      rw [bareOf_node_cons] at h
      obtain ⟨rfl, rfl⟩ := List.cons.inj h
      exact ⟨_, _, rfl, bare_node kind children, rfl⟩

lemma isExpression_bare {tree : Tree} : tree.bare.IsExpression ↔ tree.IsExpression := by
  simp [IsExpression]

end Tree

namespace Grammar

open Phrase Test SwiftTidy.Tree

variable {n : Nat} {s t : Stage} {inCondition : Bool}

/-! ## Operations and return clauses -/

/-- The children that a node has without trivia, if it is an operation or a return clause. -/
def OperandForm (kind : Kind) (children : List Tree) : Prop :=
  match kind with
  | .binaryExpr =>
    ∃ (left : Tree) (operator : List Token) (right : List Tree),
      children = left :: (operator.map .leaf ++ right) ∧ left.IsExpression ∧
        (right = [] ∨ ∃ tree, right = [tree] ∧ tree.isNode = true)
  | .returnClause =>
    ∃ arrow types, children = .leaf arrow :: types ∧ arrow.kind = .arrow ∧
      (types = [] ∨ ∃ type, types = [type] ∧ type.isNode = true ∧ type.kind.isType = true)
  | _ => True

variable {X : Symbol} {a b : Bool} {kind : Kind} {m u : Stage} {tokens : List Token}

lemma reply_nextAny_of_subset {kinds kinds' : List Kind} {lead lead' : Pause}
    (h : (nextAny kinds).reply lead tokens = true) (hkinds : kinds ⊆ kinds') :
    (nextAny kinds').reply lead' tokens = true := by
  obtain ⟨token, rest, rfl, hkind⟩ := exists_of_nextAny h
  simpa [nextAny, reply] using hkinds hkind

/-- An operand is one expression, or it is missing. -/
lemma leadsIn_operand (h : LeadsIn n (.call (.unary inCondition)) s t) :
    t.built = s.built ∨ AddsExpression s t := by
  cases hs : (nextAny operandKinds).reply s.row.lead s.row.tokens with
  | true => exact .inr (leadsIn_unary h hs)
  | false =>
    have hnone : ∀ {kinds : List Kind} {lead : Pause}, kinds ⊆ operandKinds →
        (nextAny kinds).reply lead s.row.tokens ≠ true := fun hkinds hyes => by
      simp [reply_nextAny_of_subset hyes hkinds] at hs
    obtain _ | n := n
    · simp at h
    simp only [leadsIn_call, swift, leadsIn_firstOf_cons, leadsIn_firstOf_nil] at h
    obtain ⟨hoperator, -⟩ | ⟨-, ⟨htry, -⟩ | ⟨-, h⟩⟩ := h
    · exact absurd hoperator (hnone (by simp [operandKinds]))
    · exact absurd htry (hnone (by simp [operandKinds]))
    obtain _ | n := n
    · simp at h
    simp only [leadsIn_call, swift, leadsIn_mark, leadsIn_opt] at h
    obtain ⟨u, ⟨hprimary, -⟩ | ⟨-, rfl⟩, rfl⟩ := h
    · exact absurd hprimary (hnone (List.subset_append_right _ _))
    · exact .inl (by simp)

/-- A cast has the expression and a type, if there is one. -/
lemma operandForm_cast (hs : HoldsExpression s) (hmark : LeadsIn n (opt unwrapMark take) s.take m)
    (htype : LeadsIn n (.call .type) m u) : OperandForm .binaryExpr u.built := by
  obtain ⟨left, hleft, hbuilt⟩ := hs
  obtain ⟨mark, hm⟩ : ∃ mark : List Token, m.built = s.take.built ++ mark.map .leaf := by
    obtain ⟨-, h⟩ | ⟨-, rfl⟩ := leadsIn_opt.1 hmark
    · obtain rfl := leadsIn_take.1 h
      exact ⟨_, rfl⟩
    · exact ⟨[], by simp⟩
  have hrow : m.built = left :: (s.row.tokens.take 1 ++ mark).map .leaf := by
    rw [hm, Stage.take, hbuilt]
    simp
  obtain rfl | ⟨kind, children, hu, -⟩ := leadsIn_type htype
  · exact ⟨left, _, [], by rw [List.append_nil, hrow], hleft, .inl rfl⟩
  · exact ⟨left, _, [_], by rw [hu, hrow]; rfl, hleft, .inr ⟨_, rfl, rfl⟩⟩

lemma operandForm_operation (hs : HoldsExpression s) (hoperator : LeadsIn n (.call .operatorRest) s.take m)
    (hoperand : LeadsIn n (.call (.unary inCondition)) m u) : OperandForm .binaryExpr u.built := by
  obtain ⟨left, hleft, hbuilt⟩ := hs
  obtain ⟨rest, hm, -⟩ := leads_leafy hoperator rfl
  have hrow : m.built = left :: (s.row.tokens.take 1 ++ rest).map .leaf := by
    rw [hm, Stage.take, hbuilt]
    simp
  obtain hu | ⟨right, hright, hu⟩ := leadsIn_operand hoperand
  · exact ⟨left, _, [], by rw [List.append_nil, hu, hrow], hleft, .inl rfl⟩
  · exact ⟨left, _, [right], by rw [hu, hrow]; rfl, hleft, .inr ⟨right, rfl, hright.1⟩⟩

lemma operandForm_clause (htype : LeadsIn n (.call .type) s.opened.take t)
    (hs : (next .arrow).reply s.row.lead s.row.tokens = true) : OperandForm .returnClause t.built := by
  obtain ⟨arrow, rest, htokens, hkind⟩ := exists_of_next hs
  have htake : s.opened.take.built = [.leaf arrow] := by simpa using (take_of_cons (s := s.opened) htokens).1
  obtain rfl | ⟨kind, children, ht, hspelled⟩ := leadsIn_type htype
  · exact ⟨arrow, [], htake, hkind, .inl rfl⟩
  · exact ⟨arrow, [.node kind children], by rw [ht, htake]; rfl, hkind, .inr ⟨_, rfl, rfl, hspelled.1⟩⟩

/-- The kinds of nodes whose form is told here. -/
def holdsOperand (kind : Kind) : Bool := kind == .binaryExpr || kind == .returnClause

/-- The symbols that build on an expression. -/
def Symbol.isSuffix : Symbol → Bool
  | .exprSuffixes _ => true
  | _ => false

/-- Where a symbol may be called. -/
def Symbol.FollowsExpression : Symbol → Stage → Prop
  | .exprSuffixes _, s => HoldsExpression s
  | _, _ => True

lemma Symbol.followsExpression_of_not_isSuffix (h : X.isSuffix = false) (s : Stage) : X.FollowsExpression s := by
  cases X with
  | exprSuffixes => cases h
  | _ => trivial

lemma operandForm_of_not_holdsOperand (h : holdsOperand kind = false) (children : List Tree) :
    OperandForm kind children := by
  cases kind with
  | binaryExpr | returnClause => cases h
  | _ => trivial

lemma plain_of_not_holdsOperand (h : (swift X).plain holdsOperand Symbol.isSuffix = false) :
    (∃ inCondition, X = .expr inCondition) ∨ (∃ inCondition, X = .exprSuffixes inCondition) ∨ X = .returnClause := by
  cases X with
  | inGroup opening closing depth => cases depth <;> cases h
  | expr | exprSuffixes | returnClause => simp
  | _ => cases h

/-- All operations and return clauses that are built have their form. -/
abbrev Stage.Operates (s : Stage) : Prop := s.Every fun kind children _ => OperandForm kind children

/-- The symbols keep the forms, where they may be called. -/
def KeepsOperands (n : Nat) : Prop :=
  ∀ X s t, LeadsIn n (.call X) s t → X.FollowsExpression s → s.Operates → t.Operates

namespace KeepsOperands

variable (hcalls : KeepsOperands n)

include hcalls

lemma plain {phrase : Phrase Symbol} (h : LeadsIn n phrase s t) (hs : s.Operates)
    (hplain : phrase.plain holdsOperand Symbol.isSuffix = true) : t.Operates :=
  h.every_of_plain holdsOperand Symbol.isSuffix
    (fun _ children _ hkind => operandForm_of_not_holdsOperand hkind children) hplain
    (fun X s t hX h => hcalls X s t h (Symbol.followsExpression_of_not_isSuffix hX s)) hs

lemma expr (h : LeadsIn n (swift (.expr inCondition)) s t) (hs : s.Operates) : t.Operates := by
  simp only [swift, leadsIn_mark, leadsIn_opt, leadsIn_inOrder_cons, leadsIn_inOrder_nil, exists_eq_right'] at h
  obtain ⟨u, ⟨hstart, m, hunary, hsuffixes⟩ | ⟨-, rfl⟩, rfl⟩ := h
  · obtain ⟨tree, htree, hm⟩ := leadsIn_unary hunary hstart
    have hoperand := hcalls _ _ _ hunary trivial (.opened s)
    refine hs.mark (hunary.onward.trans hsuffixes.onward) (hcalls _ _ _ hsuffixes ⟨tree, htree, ?_⟩ hoperand)
    simpa using hm
  · exact hs.mark (.refl _) (.opened s)

/-- Each operator goes around the expression that it follows. -/
lemma exprSuffixes (h : LeadsIn n (swift (.exprSuffixes inCondition)) s t) (hexpression : HoldsExpression s)
    (hs : s.Operates) : t.Operates := by
  have hagain : ∀ {u : Stage}, LeadsIn n (.call (.exprSuffixes inCondition)) ⟨[.node .binaryExpr u.built], u.row⟩ t →
      OperandForm .binaryExpr u.built → u.Operates → t.Operates := fun h hform hu =>
    hcalls _ _ _ h ⟨_, isExpression_node rfl _, rfl⟩ (hu.wrap hform)
  simp only [swift, exprSuffixPhrase, leadsIn_firstOf_cons, leadsIn_firstOf_nil] at h
  obtain ⟨-, h⟩ | ⟨-, ⟨-, h⟩ | ⟨-, ⟨-, h⟩ | ⟨-, h⟩⟩⟩ := h
  · exact hcalls.plain h hs rfl
  · simp only [leadsIn_inOrder_cons, leadsIn_inOrder_nil, leadsIn_wrap, leadsIn_take, exists_eq_left,
      exists_eq_right'] at h
    obtain ⟨m, ⟨u, ⟨v, hmark, htype⟩, rfl⟩, h⟩ := h
    refine hagain h (operandForm_cast hexpression hmark htype) ?_
    exact hcalls _ _ _ htype trivial (hcalls.plain hmark hs.take rfl)
  · simp only [leadsIn_inOrder_cons, leadsIn_inOrder_nil, leadsIn_wrap, leadsIn_take, exists_eq_left,
      exists_eq_right'] at h
    obtain ⟨m, ⟨u, ⟨v, hoperator, hoperand⟩, rfl⟩, h⟩ := h
    refine hagain h (operandForm_operation hexpression hoperator hoperand) ?_
    exact hcalls _ _ _ hoperand trivial (hcalls _ _ _ hoperator trivial hs.take)
  · exact hcalls.plain h hs rfl

lemma returnClause (h : LeadsIn n (swift .returnClause) s t) (hs : s.Operates) : t.Operates := by
  obtain ⟨hnext, h⟩ | ⟨-, rfl⟩ := leadsIn_opt.1 h
  · obtain ⟨u, hbody, rfl⟩ := leadsIn_node.1 h
    have htype : LeadsIn n (.call .type) s.opened.take u := by simpa using hbody
    exact hs.node hbody.onward (hcalls.plain hbody (.opened s) rfl) (operandForm_clause htype hnext)
  · exact hs

end KeepsOperands

/-- In the tree that is read all operations and return clauses have their form. -/
lemma every_operandForm (tokens : List Token) :
    (parseTokens tokens).Every (fun kind children _ => OperandForm kind (bareOf children)) [] := by
  refine Tree.every_of_bare (P := fun kind children _ => OperandForm kind children)
    (every_bare_parseTokens tokens (fun _ => trivial) fun n s t h hs => ?_)
  refine LeadsIn.every holdsOperand Symbol.isSuffix Symbol.FollowsExpression
    (fun _ children _ hkind => operandForm_of_not_holdsOperand hkind children)
    (fun _ s hX => Symbol.followsExpression_of_not_isSuffix hX s) ?_ h trivial hs
  intro n X s t hplain hcalls h hmay hs
  obtain ⟨inCondition, rfl⟩ | ⟨inCondition, rfl⟩ | rfl := plain_of_not_holdsOperand hplain
  · exact KeepsOperands.expr hcalls h hs
  · exact KeepsOperands.exprSuffixes hcalls h hmay hs
  · exact KeepsOperands.returnClause hcalls h hs

/-! ## Where return clauses stand -/

/-- Whether nodes of a kind hold return clauses. -/
def ownsClause : Kind → Bool
  | .functionSignature | .closureSignature | .subscriptDecl => true
  | _ => false

/-- There is no return clause in a row. -/
def Clear (row : List Tree) : Prop := ∀ tree ∈ row, tree.isNode = true → tree.kind ≠ .returnClause

/-- A node has no return clause among its children, unless it is of a kind that holds them. -/
def Owned (kind : Kind) (children : List Tree) (_ : List Token) : Prop := ownsClause kind = false → Clear children

lemma Clear.append {row more : List Tree} (h : Clear row) (hmore : Clear more) : Clear (row ++ more) :=
  fun tree htree => (List.mem_append.1 htree).elim (h tree) (hmore tree)

lemma clear_map_leaf (tokens : List Token) : Clear (tokens.map .leaf) := by
  intro tree htree hnode
  obtain ⟨token, -, rfl⟩ := List.mem_map.1 htree
  cases hnode

lemma clear_node (h : kind ≠ .returnClause) (children : List Tree) : Clear [.node kind children] := by
  intro tree htree _
  obtain rfl := List.mem_singleton.1 htree
  exact h

lemma Clear.flush {s : Progress} (h : Clear s.built) : Clear s.flush.built := h.append (clear_map_leaf _)

lemma Clear.shift {s : Progress} (h : Clear s.built) : Clear s.shift.built := by
  unfold Progress.shift
  split
  · exact h
  · exact h.append (clear_map_leaf [_])

/-- Whether there may be a return clause since the mark behind a symbol, if there may be one before it. Nothing is said
where the symbol would put it into a node. -/
def Symbol.clauses : Symbol → Bool → Option Bool
  | .returnClause, _ => some true
  | X, before => if before && X.role != .adds then none else some before

/-- Whether there may be a return clause since the mark behind a phrase, if there may be one before it, where no node
comes to hold one that does not do so. -/
def Phrase.clauses : Phrase Symbol → Bool → Option Bool
  | .skip, before | .take, before => some before
  | .call X, before => X.clauses before
  | .seq first second, before => (first.clauses before).bind second.clauses
  | .choose _ yes no, before => (yes.clauses before).bind fun a => (no.clauses before).map (a || ·)
  | .node kind body, before => (body.clauses false).bind fun inner =>
      if inner && !ownsClause kind then none else some (before || kind == .returnClause)
  | .mark body, before => (body.clauses false).map (before || ·)
  | .wrap kind body, before => (body.clauses before).bind fun inner =>
      if inner && !ownsClause kind then none else some (kind == .returnClause)

/-- What is built is owned, and there may only be a return clause since the mark if it is said so. -/
structure Progress.Keeps (clause : Bool) (s : Progress) : Prop where
  owned : s.Every Owned
  clear : clause = false → Clear s.built

namespace Progress.Keeps

variable {s : Progress} {clause : Bool}

lemma owns (h : s.Keeps clause) {kind : Kind} (hkind : clause = true → ownsClause kind = true) :
    Owned kind s.built s.rest := by
  intro hplain
  refine h.clear ?_
  cases clause with
  | false => rfl
  | true => simp [hkind rfl] at hplain

end Progress.Keeps

lemma Progress.keeps_fresh (s : Progress) : s.fresh.Keeps false := ⟨s.every_fresh, fun _ => by simp [Clear]⟩

/-- A phrase that passes the check keeps return clauses where they belong, if the symbols do. -/
lemma Phrase.keeps_run {call : Symbol → Progress → Progress} (htokens : ∀ X s, (call X s).tokens = s.tokens)
    (hcall : ∀ X s a b, X.clauses a = some b → s.Keeps a → (call X s).Keeps b) (phrase : Phrase Symbol)
    (hcheck : phrase.clauses a = some b) {s : Progress} (h : s.Keeps a) : (phrase.run call s).Keeps b := by
  induction phrase generalizing a b s with
  | skip =>
    obtain rfl := Option.some.inj hcheck
    exact h
  | take =>
    obtain rfl := Option.some.inj hcheck
    exact ⟨h.owned.flush.shift, fun hb => (h.clear hb).flush.shift⟩
  | call X => exact hcall X s a b hcheck h
  | seq first second ih₁ ih₂ =>
    obtain ⟨mid, hfirst, hsecond⟩ := Option.bind_eq_some_iff.1 hcheck
    exact ih₂ hsecond (ih₁ hfirst h)
  | choose test yes no ih₁ ih₂ =>
    obtain ⟨x, hyes, hrest⟩ := Option.bind_eq_some_iff.1 hcheck
    obtain ⟨y, hno, rfl⟩ := Option.map_eq_some_iff.1 hrest
    rw [run]
    split
    · exact ⟨(ih₁ hyes h).owned, fun hb => (ih₁ hyes h).clear (Bool.or_eq_false_iff.1 hb).1⟩
    · exact ⟨(ih₂ hno h).owned, fun hb => (ih₂ hno h).clear (Bool.or_eq_false_iff.1 hb).2⟩
  | node kind body ih =>
    obtain ⟨inner, hbody, hrest⟩ := Option.bind_eq_some_iff.1 hcheck
    rw [Option.ite_none_left_eq_some] at hrest
    obtain ⟨hkind, hb⟩ := hrest
    obtain rfl := Option.some.inj hb
    have hinner := ih hbody s.flush.keeps_fresh
    have hkept := tokens_run call htokens body s.flush.fresh
    refine ⟨h.owned.open hinner.owned hkept (hinner.owns (by simpa using hkind)), fun hb => ?_⟩
    rw [Bool.or_eq_false_iff, beq_eq_false_iff_ne] at hb
    exact (h.clear hb.1).flush.append (clear_node hb.2 _)
  | mark body ih =>
    obtain ⟨inner, hbody, rfl⟩ := Option.map_eq_some_iff.1 hcheck
    have hinner := ih hbody s.flush.keeps_fresh
    refine ⟨h.owned.mark hinner.owned (tokens_run call htokens body _), fun hb => ?_⟩
    rw [Bool.or_eq_false_iff] at hb
    exact (h.clear hb.1).flush.append (hinner.clear hb.2)
  | wrap kind body ih =>
    obtain ⟨inner, hbody, hrest⟩ := Option.bind_eq_some_iff.1 hcheck
    rw [Option.ite_none_left_eq_some] at hrest
    obtain ⟨hkind, hb⟩ := hrest
    obtain rfl := Option.some.inj hb
    have hinner := ih hbody h
    refine ⟨hinner.owned.node (hinner.owns (by simpa using hkind)), fun hb => ?_⟩
    exact clear_node (beq_eq_false_iff_ne.1 hb) _

lemma clauses_swift (h : X.clauses a = some b) : ∃ c, (swift X).clauses a = some c ∧ (b = false → c = false) := by
  suffices hcheck : ((X.clauses a).all fun b => ((swift X).clauses a).any fun c => b || !c) = true by
    rw [h, Option.all_some, Option.any_eq_true] at hcheck
    obtain ⟨c, hc, hb⟩ := hcheck
    exact ⟨c, hc, fun hfalse => by simpa [hfalse] using hb⟩
  cases X with
  | inGroup opening closing depth => cases a <;> cases depth <;> rfl
  | statements ending => cases a <;> cases ending <;> rfl
  | suffixes inCondition => cases a <;> cases inCondition <;> rfl
  | _ => cases a <;> rfl

lemma keeps_derive (n : Nat) (X : Symbol) {s : Progress} (hX : X.clauses a = some b) (h : s.Keeps a) :
    (derive swift n X s).Keeps b := by
  induction n generalizing X s a b with
  | zero =>
    refine ⟨h.owned, fun hb => h.clear ?_⟩
    cases X with
    | returnClause => simp [Symbol.clauses, hb] at hX
    | _ =>
      simp only [Symbol.clauses] at hX
      simp_all
  | succ n ih =>
    obtain ⟨c, hcheck, hc⟩ := clauses_swift hX
    have hkeeps := (swift X).keeps_run (fun X s => tokens_derive swift n X s) (fun Y _ _ _ hY => ih Y hY) hcheck h
    exact ⟨hkeeps.owned, fun hb => hkeeps.clear (hc hb)⟩

/-- In the tree that is read return clauses stand in signatures and subscripts only. -/
lemma exists_owner_of_clause {path : Path} {children : List Tree}
    (h : (parseTokens tokens).sub? path = some (.node .returnClause children)) :
    ∃ owner, (parseTokens tokens).ownerKind? path = some owner ∧ ownsClause owner = true := by
  have hkeeps : (derive swift (openSymbols tokens) (.statements .fileEnd) ⟨[], tokens⟩).Keeps false :=
    keeps_derive _ _ rfl (Progress.keeps_fresh ⟨[], tokens⟩)
  obtain rfl | ⟨q, i, rfl⟩ := List.eq_nil_or_concat' path
  · rw [parseTokens, sub?_nil] at h
    cases h
  obtain ⟨owner, row, hpart, hchild⟩ := exists_owner_of_concat h
  have hmem := List.mem_of_getElem? hchild
  refine ⟨owner, by rw [ownerKind?_concat, hpart]; rfl, ?_⟩
  by_contra howner
  suffices hclear : Clear row from hclear _ hmem rfl rfl
  obtain rfl | hq := eq_or_ne q []
  · obtain ⟨rfl, rfl⟩ := Tree.node.inj (Option.some.inj hpart)
    exact (hkeeps.clear rfl).flush
  · exact every_of_parse hkeeps.owned hq hpart (by simpa using howner)

end Grammar

open Grammar

/-! ## Trees as they are looked at -/

/-- What is relied on where parts of a tree are told by their kinds. -/
structure Typed (tree : Tree) : Prop where
  /-- The nodes of a call are what is called and then arguments, a closure or both. -/
  call : ∀ path children, tree.sub? path = some (.node .callExpr children) →
    ∃ callee rest, children.filter Tree.isNode = callee :: rest ∧ callee.IsExpression ∧
      rest.map Tree.kind ∈ [[.argumentList], [.closureExpr], [.argumentList, .closureExpr]]
  argument : ∀ path children, tree.sub? path = some (.node .argument children) →
    (children.filter Tree.isNode).length ≤ 1
  /-- An operation begins with an expression, and there is at most one more node. -/
  operation : ∀ path children, tree.sub? path = some (.node .binaryExpr children) →
    ∃ left rest, children = left :: rest ∧ left.IsExpression ∧ (rest.filter Tree.isNode).length ≤ 1
  /-- A return clause begins with an arrow, and the only node there may be is a type. -/
  clause : ∀ path children, tree.sub? path = some (.node .returnClause children) →
    ∃ arrow rest, children = .leaf arrow :: rest ∧ arrow.kind = .arrow ∧ (rest.filter Tree.isNode).length ≤ 1 ∧
      ∀ type ∈ rest.filter Tree.isNode, type.kind.isType = true
  /-- There is no return clause in a return clause. -/
  single : ∀ path children, tree.sub? path = some (.node .returnClause children) →
    ∀ inside inner, inside ≠ [] → (Tree.node .returnClause children).sub? inside ≠ some (.node .returnClause inner)
  /-- A return clause stands in a signature or in a subscript. -/
  owner : ∀ path children, tree.sub? path = some (.node .returnClause children) →
    tree.ownerKind? path ∈ [some .functionSignature, some .closureSignature, some .subscriptDecl]

section

variable {text : String} {path : Path} {children : List Tree} {kind : Kind}

section

variable (h : (parse text).sub? path = some (.node kind children))

include h

lemma callForm_of_parse : CallForm kind (Tree.bareOf children) := by
  obtain ⟨q, hq, -⟩ := Tree.exists_sub?_bare h
  exact formed_parseTokens (tokensOf text) q kind _ hq

lemma operandForm_of_parse : OperandForm kind (Tree.bareOf children) :=
  (Tree.every_node.1 ((every_operandForm (tokensOf text)).sub? h)).1

lemma not_isTrivia_first_of_parse (hpath : path ≠ []) :
    ∀ token ∈ (Tree.leavesOf children).head?, token.isTrivia = false :=
  every_of_parse (everyStart_file (tokensOf text)) hpath h

lemma ne_nil_of_parse (hkind : kind ≠ .sourceFile) : path ≠ [] := by
  rintro rfl
  rw [parse, parseTokens, Tree.sub?_nil] at h
  exact hkind (Tree.node.inj (Option.some.inj h)).1.symm

end

lemma ownerKind?_clause (h : (parse text).sub? path = some (.node .returnClause children)) :
    (parse text).ownerKind? path ∈ [some .functionSignature, some .closureSignature, some .subscriptDecl] := by
  obtain ⟨owner, howner, hkind⟩ := exists_owner_of_clause h
  rw [parse, howner]
  cases owner <;> simp_all [ownsClause]

/-- Nothing in a return clause may hold another one. -/
lemma single_clause (h : (parse text).sub? path = some (.node .returnClause children)) {inside : Path}
    {inner : List Tree} (hinside : inside ≠ []) :
    (Tree.node .returnClause children).sub? inside ≠ some (.node .returnClause inner) := by
  intro hsub
  have hwhole : (parse text).sub? (path ++ inside) = some (.node .returnClause inner) :=
    (Tree.sub?_append_some h inside).trans hsub
  obtain rfl | ⟨q, i, rfl⟩ := List.eq_nil_or_concat' inside
  · exact hinside rfl
  obtain ⟨kind, row, hpart, hchild⟩ := Tree.exists_owner_of_concat hsub
  have hrank := (((Tree.sound_parse text).sub? h).rank_eq_zero rfl hpart)
  have howner := ownerKind?_clause hwhole
  rw [← List.append_assoc, Tree.ownerKind?_concat, Tree.sub?_append, h] at howner
  simp only [Option.bind_some, hpart, Option.map_some, Tree.kind] at howner
  cases kind <;> simp_all [Kind.rank]

/-- The nodes of a call are told by its form. -/
lemma exists_callee (h : (parse text).sub? path = some (.node .callExpr children)) :
    ∃ callee rest, children.filter Tree.isNode = callee :: rest ∧ callee.IsExpression ∧
      rest.map Tree.kind ∈ [[.argumentList], [.closureExpr], [.argumentList, .closureExpr]] := by
  obtain ⟨callee, hcallee, hform⟩ := callForm_of_parse h
  have hnodes : ∃ rest, (children.filter Tree.isNode).map Tree.bare = callee :: rest ∧
      rest.map Tree.kind ∈ [[.argumentList], [.closureExpr], [.argumentList, .closureExpr]] := by
    rw [← Tree.filter_isNode_bareOf]
    obtain ⟨list, hrow⟩ | ⟨list, body, hrow⟩ | ⟨body, hrow⟩ := hform
    · exact ⟨[.node .argumentList list], by rw [hrow, List.filter_cons_of_pos hcallee.1]; rfl, by simp [Tree.kind]⟩
    · exact ⟨[.node .argumentList list, .node .closureExpr body], by rw [hrow, List.filter_cons_of_pos hcallee.1]; rfl,
        by simp [Tree.kind]⟩
    · exact ⟨[.node .closureExpr body], by rw [hrow, List.filter_cons_of_pos hcallee.1]; rfl, by simp [Tree.kind]⟩
  obtain ⟨rest, hmap, hkinds⟩ := hnodes
  obtain ⟨first, others, hrow, rfl, rfl⟩ := List.map_eq_cons_iff.1 hmap
  exact ⟨first, others, hrow, Tree.isExpression_bare.1 hcallee, Tree.map_kind_bare others ▸ hkinds⟩

lemma length_argument_le (h : (parse text).sub? path = some (.node .argument children)) :
    (children.filter Tree.isNode).length ≤ 1 := by
  obtain ⟨label, values, hform, hlabel, hvalues⟩ := callForm_of_parse h
  have hnone : label.filter Tree.isNode = [] := by
    obtain rfl | ⟨name, colon, rfl, -⟩ := hlabel <;> rfl
  rw [← Tree.length_filter_isNode_bareOf, hform, List.filter_append, hnone]
  obtain rfl | ⟨value, rfl, hvalue⟩ := hvalues
  · simp
  · simp [hvalue]

lemma exists_left (h : (parse text).sub? path = some (.node .binaryExpr children)) :
    ∃ left rest, children = left :: rest ∧ left.IsExpression ∧ (rest.filter Tree.isNode).length ≤ 1 := by
  obtain ⟨first, operator, right, hform, hfirst, hright⟩ := operandForm_of_parse h
  obtain ⟨left, rest, rfl, rfl, hrest⟩ :=
    Tree.exists_cons_of_bareOf hform (not_isTrivia_first_of_parse h (ne_nil_of_parse h (by simp)))
  refine ⟨left, rest, rfl, Tree.isExpression_bare.1 hfirst, ?_⟩
  rw [← Tree.length_filter_isNode_bareOf, hrest, List.filter_append, Tree.filter_isNode_map_leaf]
  obtain rfl | ⟨tree, rfl, htree⟩ := hright
  · simp
  · simp [htree]

lemma exists_arrow (h : (parse text).sub? path = some (.node .returnClause children)) :
    ∃ arrow rest, children = .leaf arrow :: rest ∧ arrow.kind = .arrow ∧ (rest.filter Tree.isNode).length ≤ 1 ∧
      ∀ type ∈ rest.filter Tree.isNode, type.kind.isType = true := by
  obtain ⟨arrow, types, hform, harrow, htypes⟩ := operandForm_of_parse h
  obtain ⟨first, rest, rfl, hfirst, hrest⟩ :=
    Tree.exists_cons_of_bareOf hform (not_isTrivia_first_of_parse h (ne_nil_of_parse h (by simp)))
  obtain rfl := Tree.eq_leaf_of_bare hfirst
  have hnodes : (rest.filter Tree.isNode).map Tree.bare = types := by
    rw [← Tree.filter_isNode_bareOf, hrest]
    obtain rfl | ⟨type, rfl, hnode, -⟩ := htypes
    · rfl
    · simp [hnode]
  refine ⟨arrow, rest, rfl, harrow, ?_, fun type htype => ?_⟩
  · rw [← List.length_map (f := Tree.bare), hnodes]
    obtain rfl | ⟨type, rfl, -⟩ := htypes <;> simp
  · have hmem := hnodes ▸ List.mem_map_of_mem (f := Tree.bare) htype
    obtain rfl | ⟨other, rfl, -, hkind⟩ := htypes
    · simp at hmem
    · rwa [← List.mem_singleton.1 hmem, Tree.kind_bare] at hkind

end

/-- The trees of all texts can be relied on. -/
theorem typed_parse (text : String) : Typed (parse text) where
  call _ _ h := exists_callee h
  argument _ _ h := length_argument_le h
  operation _ _ h := exists_left h
  clause _ _ h := exists_arrow h
  single _ _ h _ _ hinside := single_clause h hinside
  owner _ _ h := ownerKind?_clause h

end SwiftTidy

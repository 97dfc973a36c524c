import SwiftTidy.Proofs.Forms

/-!
# What calls look like

Calls, subscripts and calls of a closure only are nodes of one kind, and members of a value and implied ones are, too.
This tells for all of them, and for names and arguments, which children they may have (`Grammar.CallForm`). An
expression is always one node, whatever its operators and suffixes are (`Grammar.leadsIn_expr`).
-/

namespace SwiftTidy

open Token (significant)

/-- A node that is an expression. -/
def Tree.IsExpression (tree : Tree) : Prop := tree.isNode = true ∧ tree.kind.isExpression = true

lemma Tree.IsExpression.exists_node {tree : Tree} (h : tree.IsExpression) :
    ∃ kind children, tree = .node kind children ∧ kind.isExpression = true := by
  cases tree with
  | leaf token => cases h.1
  | node kind children => exact ⟨kind, children, rfl, h.2⟩

namespace Grammar

open Phrase Test SwiftTidy.Tree

variable {n : Nat} {s t : Stage} {inCondition : Bool} {closing : Kind}

/-- The children that a node has without trivia, if it is a name, a member, a call, an argument list or an argument. -/
def CallForm (kind : Kind) (children : List Tree) : Prop :=
  match kind with
  | .identExpr => ∃ name : Token, children = [.leaf name] ∧ (name.kind = .ident ∨ name.kind = .initKw)
  | .memberExpr =>
    (∃ tokens : List Token, children = tokens.map .leaf) ∨
      ∃ base dot name, children = [base, .leaf dot, .leaf name] ∧ base.IsExpression ∧ dot.kind = .dot
  | .callExpr =>
    ∃ callee, callee.IsExpression ∧
      ((∃ list, children = [callee, .node .argumentList list]) ∨
        (∃ list body, children = [callee, .node .argumentList list, .node .closureExpr body]) ∨
        ∃ body, children = [callee, .node .closureExpr body])
  | .argumentList =>
    ∃ opening items, children = .leaf opening :: items ∧ (opening.kind = .lparen ∨ opening.kind = .lbracket) ∧
      ∀ item ∈ items, item.isNode = true → item.kind = .argument
  | .argument =>
    ∃ label values, children = label ++ values ∧
      (label = [] ∨ ∃ name colon, label = [.leaf name, .leaf colon] ∧ name.kind.isName = true ∧ colon.kind = .colon) ∧
      (values = [] ∨ ∃ value, values = [value] ∧ value.isNode = true)
  | _ => True

/-! ## Expressions -/

/-- Something adds one expression to what is built. -/
def AddsExpression (s t : Stage) : Prop := ∃ tree, tree.IsExpression ∧ t.built = s.built ++ [tree]

/-- All that is built is one expression. -/
def HoldsExpression (s : Stage) : Prop := ∃ tree, tree.IsExpression ∧ s.built = [tree]

variable {X : Symbol} {children : List Tree} {kind : Kind}

lemma isExpression_node (h : kind.isExpression = true) (children : List Tree) :
    (Tree.node kind children).IsExpression := ⟨rfl, h⟩

lemma leadsIn_closure (h : LeadsIn n (.call .closure) s t) :
    ∃ body, t.built = s.built ++ [.node .closureExpr body] := by
  cases n with
  | zero => simp at h
  | succ n =>
    rw [leadsIn_call] at h
    obtain ⟨u, -, rfl⟩ := leadsIn_node.1 h
    exact ⟨u.built, rfl⟩

lemma leadsIn_argumentList (h : LeadsIn n (.call (.argumentList closing)) s t) :
    ∃ list, t.built = s.built ++ [.node .argumentList list] := by
  cases n with
  | zero => simp at h
  | succ n =>
    rw [leadsIn_call] at h
    obtain ⟨u, -, rfl⟩ := leadsIn_node.1 h
    exact ⟨u.built, rfl⟩

lemma leadsIn_primary (h : LeadsIn n (.call .primary) s t)
    (hs : (nextAny primaryKinds).reply s.row.lead s.row.tokens = true) : AddsExpression s t := by
  cases n with
  | zero => simp at h
  | succ n =>
    simp only [leadsIn_call, swift, primaryPhrase, leadsIn_firstOf_cons, leadsIn_firstOf_nil, leadsIn_node,
      leadsIn_skip] at h
    obtain ⟨-, u, -, rfl⟩ | ⟨hname, h⟩ := h
    · exact ⟨_, isExpression_node rfl _, rfl⟩
    obtain ⟨-, u, -, rfl⟩ | ⟨hliteral, h⟩ := h
    · exact ⟨_, isExpression_node rfl _, rfl⟩
    obtain ⟨-, u, -, rfl⟩ | ⟨htuple, h⟩ := h
    · exact ⟨_, isExpression_node rfl _, rfl⟩
    obtain ⟨-, h⟩ | ⟨harray, h⟩ := h
    · cases n with
      | zero => simp at h
      | succ n =>
        rw [leadsIn_call] at h
        obtain ⟨u, -, rfl⟩ := leadsIn_node.1 h
        exact ⟨_, isExpression_node rfl _, rfl⟩
    obtain ⟨-, h⟩ | ⟨hclosure, h⟩ := h
    · obtain ⟨body, hbuilt⟩ := leadsIn_closure h
      exact ⟨_, isExpression_node rfl _, hbuilt⟩
    obtain ⟨-, u, -, rfl⟩ | ⟨hdot, rfl⟩ := h
    · exact ⟨_, isExpression_node rfl _, rfl⟩
    -- one of these comes
    exfalso
    obtain ⟨token, rest, htokens, hkind⟩ := exists_of_nextAny hs
    simp only [nextAny, next, reply, htokens, List.getElem?_cons_zero, Option.any_some]
      at hname hliteral htuple harray hclosure hdot
    simp_all [primaryKinds]

/-- Suffixes go around the expression that they follow. -/
lemma leadsIn_suffixes (h : LeadsIn n (.call (.suffixes inCondition)) s t) (hs : HoldsExpression s) :
    HoldsExpression t := by
  induction n generalizing s with
  | zero => simp at h
  | succ n ih =>
    have hwrapped : ∀ {kind : Kind} {children : List Tree} {row : Row}, kind.isExpression = true →
        LeadsIn n (.call (.suffixes inCondition)) ⟨[.node kind children], row⟩ t → HoldsExpression t :=
      fun hkind h => ih h ⟨_, isExpression_node hkind _, rfl⟩
    simp only [leadsIn_call, swift, suffixPhrase, callOf, leadsIn_firstOf_cons, leadsIn_firstOf_nil,
      leadsIn_inOrder_cons, leadsIn_inOrder_nil, leadsIn_wrap, leadsIn_skip, exists_eq_right'] at h
    obtain ⟨-, m, ⟨u, -, rfl⟩, h⟩ | ⟨-, h⟩ := h
    · exact hwrapped rfl h
    obtain ⟨-, m, ⟨u, -, rfl⟩, h⟩ | ⟨-, h⟩ := h
    · exact hwrapped rfl h
    obtain ⟨-, m, ⟨u, -, rfl⟩, h⟩ | ⟨-, h⟩ := h
    · exact hwrapped rfl h
    obtain ⟨-, m, ⟨u, -, rfl⟩, h⟩ | ⟨-, h⟩ := h
    · exact hwrapped rfl h
    obtain ⟨-, m, ⟨u, -, rfl⟩, h⟩ | ⟨-, rfl⟩ := h
    · exact hwrapped rfl h
    · exact hs

lemma leadsIn_postfixed (h : LeadsIn n (.call (.postfixed inCondition)) s t)
    (hs : (nextAny primaryKinds).reply s.row.lead s.row.tokens = true) : AddsExpression s t := by
  cases n with
  | zero => simp at h
  | succ n =>
    simp only [leadsIn_call, swift, leadsIn_mark, leadsIn_opt, leadsIn_inOrder_cons, leadsIn_inOrder_nil,
      exists_eq_right'] at h
    obtain ⟨u, ⟨-, m, hprimary, hsuffixes⟩ | ⟨hnone, -⟩, rfl⟩ := h
    · obtain ⟨tree, htree, hm⟩ := leadsIn_primary hprimary hs
      obtain ⟨later, hlater, hu⟩ := leadsIn_suffixes hsuffixes ⟨tree, htree, by simpa using hm⟩
      exact ⟨later, hlater, by simp [hu]⟩
    · -- the same tokens come, and the question does not look at the pause before them
      have hsame : (nextAny primaryKinds).reply s.opened.row.lead s.opened.row.tokens = true := hs
      cases hsame.symm.trans hnone

lemma leadsIn_unary (h : LeadsIn n (.call (.unary inCondition)) s t)
    (hs : (nextAny operandKinds).reply s.row.lead s.row.tokens = true) : AddsExpression s t := by
  cases n with
  | zero => simp at h
  | succ n =>
    simp only [leadsIn_call, swift, leadsIn_firstOf_cons, leadsIn_firstOf_nil, leadsIn_node] at h
    obtain ⟨-, u, -, rfl⟩ | ⟨hoperator, ⟨-, u, -, rfl⟩ | ⟨htry, h⟩⟩ := h
    · exact ⟨_, isExpression_node rfl _, rfl⟩
    · exact ⟨_, isExpression_node rfl _, rfl⟩
    · refine leadsIn_postfixed h ?_
      obtain ⟨token, rest, htokens, hkind⟩ := exists_of_nextAny hs
      simp only [nextAny, reply, htokens, List.getElem?_cons_zero, Option.any_some] at hoperator htry ⊢
      simp_all [operandKinds]

/-- Operators and alternatives go around the expression that they follow. -/
lemma leadsIn_exprSuffixes (h : LeadsIn n (.call (.exprSuffixes inCondition)) s t) (hs : HoldsExpression s) :
    HoldsExpression t := by
  induction n generalizing s with
  | zero => simp at h
  | succ n ih =>
    simp only [leadsIn_call, swift, exprSuffixPhrase, leadsIn_firstOf_cons, leadsIn_firstOf_nil, leadsIn_inOrder_cons,
      leadsIn_inOrder_nil, leadsIn_wrap, leadsIn_skip, exists_eq_right'] at h
    obtain ⟨-, u, -, rfl⟩ | ⟨-, ⟨-, m, ⟨u, -, rfl⟩, h⟩ | ⟨-, ⟨-, m, ⟨u, -, rfl⟩, h⟩ | ⟨-, rfl⟩⟩⟩ := h
    · exact ⟨_, isExpression_node rfl _, rfl⟩
    · exact ih h ⟨_, isExpression_node rfl _, rfl⟩
    · exact ih h ⟨_, isExpression_node rfl _, rfl⟩
    · exact hs

/-- Where an operand begins there is one expression. -/
lemma leadsIn_expr (h : LeadsIn n (.call (.expr inCondition)) s t)
    (hs : (nextAny operandKinds).reply s.row.lead s.row.tokens = true) : AddsExpression s t := by
  cases n with
  | zero => simp at h
  | succ n =>
    simp only [leadsIn_call, swift, leadsIn_mark, leadsIn_opt, leadsIn_inOrder_cons, leadsIn_inOrder_nil,
      exists_eq_right'] at h
    have hsame : (nextAny operandKinds).reply s.opened.row.lead s.opened.row.tokens = true := hs
    obtain ⟨u, ⟨-, m, hunary, hsuffixes⟩ | ⟨hnone, -⟩, rfl⟩ := h
    · obtain ⟨tree, htree, hm⟩ := leadsIn_unary hunary hsame
      obtain ⟨later, hlater, hu⟩ := leadsIn_exprSuffixes hsuffixes ⟨tree, htree, by simpa using hm⟩
      exact ⟨later, hlater, by simp [hu]⟩
    · cases hsame.symm.trans hnone

/-! ## Arguments -/

/-- Between the brackets of a list there are tokens and arguments. -/
lemma leadsIn_argumentItems (h : LeadsIn n (.call (.argumentItems closing)) s t) :
    ∃ items, t.built = s.built ++ items ∧ ∀ item ∈ items, item.isNode = true → item.kind = .argument := by
  induction n generalizing s with
  | zero => simp at h
  | succ n ih =>
    rw [leadsIn_call, swift] at h
    simp only [leadsIn_firstOf_cons, leadsIn_firstOf_nil, leadsIn_skip] at h
    obtain ⟨-, rfl⟩ | ⟨-, ⟨-, h⟩ | ⟨-, ⟨-, rfl⟩ | ⟨-, ⟨-, h⟩ | ⟨-, rfl⟩⟩⟩⟩ := h
    · exact ⟨[], by simp, by simp⟩
    · simp only [leadsIn_inOrder_cons, leadsIn_inOrder_nil, leadsIn_take, exists_eq_left, exists_eq_right'] at h
      obtain ⟨items, hbuilt, hitems⟩ := ih h
      refine ⟨(s.row.tokens.take 1).map .leaf ++ items, by rw [hbuilt, Stage.take, List.append_assoc], ?_⟩
      intro item hitem hnode
      rcases List.mem_append.1 hitem with hleaf | hitem
      · obtain ⟨token, -, rfl⟩ := List.mem_map.1 hleaf
        simp [isNode] at hnode
      · exact hitems item hitem hnode
    · exact ⟨[], by simp, by simp⟩
    · obtain ⟨m, hargument, h⟩ := leadsIn_inOrder_cons.1 h
      obtain ⟨u, -, rfl⟩ := leadsIn_node.1 hargument
      simp only [leadsIn_inOrder_cons, leadsIn_inOrder_nil, exists_eq_right'] at h
      obtain ⟨items, hbuilt, hitems⟩ := ih h
      refine ⟨.node .argument u.built :: items, by simp [hbuilt], ?_⟩
      intro item hitem hnode
      rcases List.mem_cons.1 hitem with rfl | hitem
      · rfl
      · exact hitems item hitem hnode
    · exact ⟨[], by simp, by simp⟩

/-- A list begins with its bracket. -/
lemma callForm_argumentList (h : LeadsIn n (.call (.arguments closing)) s.opened t)
    (hs : ∃ token ∈ s.row.tokens.head?, token.kind = .lparen ∨ token.kind = .lbracket) :
    CallForm .argumentList t.built := by
  obtain ⟨opening, hhead, hkind⟩ := hs
  obtain ⟨rest, htokens⟩ := List.head?_eq_some_iff.1 (Option.mem_def.1 hhead)
  cases n with
  | zero => simp at h
  | succ n =>
    simp only [leadsIn_call, swift, leadsIn_inOrder_cons, leadsIn_inOrder_nil, leadsIn_take, exists_eq_left,
      exists_eq_right'] at h
    obtain ⟨m, hitems, haccept⟩ := h
    obtain ⟨items, hbuilt, hkinds⟩ := leadsIn_argumentItems hitems
    rw [(take_of_cons (s := s.opened) htokens).1, Stage.built_opened, List.nil_append, List.singleton_append] at hbuilt
    obtain ⟨last, -, -, ht⟩ | ⟨-, rfl⟩ := leadsIn_accept haccept
    · refine ⟨opening, items ++ [.leaf last], by simp [ht, hbuilt], hkind, ?_⟩
      intro item hitem hnode
      rcases List.mem_append.1 hitem with hitem | hlast
      · exact hkinds item hitem hnode
      · obtain rfl := List.mem_singleton.1 hlast
        simp [isNode] at hnode
    · exact ⟨opening, items, hbuilt, hkind, hkinds⟩

/-- The phrase of an argument: perhaps a label, and what stands for its value. -/
def argumentPhrase (closing : Kind) : Phrase Symbol :=
  inOrder [opt label <| inOrder [take, take],
    firstOf [(exprStart, call (.expr false)), (nextAny [closing, .comma], skip)] (call .error)]

/-- A label is a name and a colon. -/
lemma leadsIn_label (h : LeadsIn n (opt label <| inOrder [take, take]) s.opened t) :
    t.built = [] ∨
      ∃ name colon, t.built = [.leaf name, .leaf colon] ∧ name.kind.isName = true ∧ colon.kind = .colon := by
  simp only [leadsIn_opt, leadsIn_inOrder_cons, leadsIn_inOrder_nil, leadsIn_take, exists_eq_left] at h
  obtain ⟨hlabel, rfl⟩ | ⟨-, rfl⟩ := h
  · refine .inr ?_
    simp only [label, nextName, second, reply, Bool.and_eq_true, Stage.tokens_opened] at hlabel
    cases htokens : s.row.tokens with
    | nil => simp [htokens] at hlabel
    | cons name rest =>
      cases rest with
      | nil => simp [htokens] at hlabel
      | cons colon rest =>
        obtain ⟨hbuilt, hrest⟩ := take_of_cons (s := s.opened) htokens
        refine ⟨name, colon, ?_, by simpa [htokens] using hlabel⟩
        rw [(take_of_cons hrest).1, hbuilt]
        rfl
  · exact .inl rfl

/-- An argument may have a label, and has one value at most. -/
lemma callForm_argument (h : LeadsIn n (argumentPhrase closing) s.opened t) : CallForm .argument t.built := by
  simp only [argumentPhrase, leadsIn_inOrder_cons, leadsIn_inOrder_nil, exists_eq_right', leadsIn_firstOf_cons,
    leadsIn_firstOf_nil, leadsIn_skip] at h
  obtain ⟨m, hlabel, hvalue⟩ := h
  refine ⟨m.built, ?_⟩
  suffices hvalues : ∃ values, t.built = m.built ++ values ∧
      (values = [] ∨ ∃ value, values = [value] ∧ value.isNode = true) by
    obtain ⟨values, hbuilt, hvalues⟩ := hvalues
    exact ⟨values, hbuilt, leadsIn_label hlabel, hvalues⟩
  obtain ⟨hstart, h⟩ | ⟨-, ⟨-, rfl⟩ | ⟨-, h⟩⟩ := hvalue
  · simp only [exprStart, reply, Bool.and_eq_true] at hstart
    obtain ⟨tree, htree, hbuilt⟩ := leadsIn_expr h hstart.1
    exact ⟨[tree], hbuilt, .inr ⟨tree, rfl, htree.1⟩⟩
  · exact ⟨[], by simp, .inl rfl⟩
  · cases n with
    | zero => simp at h
    | succ n =>
      rw [leadsIn_call] at h
      obtain ⟨u, -, rfl⟩ := leadsIn_node.1 h
      exact ⟨[_], rfl, .inr ⟨_, rfl, rfl⟩⟩

/-! ## All nodes -/

/-- The kinds of nodes whose form is told. -/
def inCall (kind : Kind) : Bool :=
  match kind with
  | .identExpr | .memberExpr | .callExpr | .argumentList | .argument => true
  | _ => false

/-- The symbols that build on what is there, or rely on what comes. -/
def Symbol.isRelying : Symbol → Bool
  | .suffixes _ | .argumentList _ => true
  | _ => false

/-- Where a symbol may be called. -/
def Symbol.Relies : Symbol → Stage → Prop
  | .suffixes _, s => HoldsExpression s
  | .argumentList _, s => ∃ token ∈ s.row.tokens.head?, token.kind = .lparen ∨ token.kind = .lbracket
  | _, _ => True

lemma plain_of_not_inCall (h : (swift X).plain inCall Symbol.isRelying = false) :
    X = .primary ∨ (∃ inCondition, X = .suffixes inCondition) ∨ (∃ inCondition, X = .postfixed inCondition) ∨
      (∃ closing, X = .argumentList closing) ∨ ∃ closing, X = .argumentItems closing := by
  cases X with
  | inGroup opening closing depth => cases depth <;> cases h
  | primary | suffixes | postfixed | argumentList | argumentItems => simp
  | _ => cases h

lemma relies_of_not_isRelying (h : X.isRelying = false) (s : Stage) : X.Relies s := by
  cases X with
  | suffixes | argumentList => cases h
  | _ => trivial

/-- All calls, names and arguments that are built have their form. -/
abbrev Stage.Formed (s : Stage) : Prop := s.Every fun kind children _ => CallForm kind children

lemma callForm_of_not_inCall (h : inCall kind = false) (children : List Tree) : CallForm kind children := by
  cases kind with
  | identExpr | memberExpr | callExpr | argumentList | argument => cases h
  | _ => trivial

/-- The symbols keep the forms, where they may be called. -/
def KeepsForms (n : Nat) : Prop := ∀ X s t, LeadsIn n (.call X) s t → X.Relies s → s.Formed → t.Formed

section

variable (hcalls : KeepsForms n)

include hcalls

lemma KeepsForms.plain {phrase : Phrase Symbol} (h : LeadsIn n phrase s t) (hs : s.Formed)
    (hplain : phrase.plain inCall Symbol.isRelying = true) : t.Formed :=
  h.every_of_plain inCall Symbol.isRelying (fun _ children _ hkind => callForm_of_not_inCall hkind children) hplain
    (fun X s t hX h => hcalls X s t h (relies_of_not_isRelying hX s)) hs

lemma KeepsForms.primary (h : LeadsIn n (swift .primary) s t) (hs : s.Formed) : t.Formed := by
  simp only [swift, primaryPhrase, leadsIn_firstOf_cons, leadsIn_firstOf_nil] at h
  obtain ⟨hname, h⟩ | ⟨-, h⟩ := h
  · obtain ⟨u, hbody, rfl⟩ := leadsIn_node.1 h
    obtain rfl := leadsIn_take.1 hbody
    obtain ⟨name, rest, htokens, hkind⟩ := exists_of_nextAny hname
    refine hs.node (.take _) (Stage.Every.opened s).take ⟨name, ?_, by simpa using hkind⟩
    exact (take_of_cons (s := s.opened) htokens).1
  obtain ⟨-, h⟩ | ⟨-, ⟨-, h⟩ | ⟨-, ⟨-, h⟩ | ⟨-, ⟨-, h⟩ | ⟨-, h⟩⟩⟩⟩ := h
  · exact hcalls.plain h hs rfl
  · exact hcalls.plain h hs rfl
  · exact hcalls.plain h hs rfl
  · exact hcalls.plain h hs rfl
  obtain ⟨-, h⟩ | ⟨-, h⟩ := h
  · -- an implied member is made of tokens
    obtain ⟨u, hbody, rfl⟩ := leadsIn_node.1 h
    simp only [leadsIn_inOrder_cons, leadsIn_inOrder_nil, leadsIn_take, exists_eq_left] at hbody
    subst hbody
    refine hs.node ((Stage.Onward.take _).trans (.take _)) (Stage.Every.opened s).take.take (.inl ?_)
    exact ⟨s.row.tokens.take 1 ++ s.opened.take.row.tokens.take 1, by rw [List.map_append]; rfl⟩
  · exact hcalls.plain h hs rfl

lemma KeepsForms.postfixed (h : LeadsIn n (swift (.postfixed inCondition)) s t) (hs : s.Formed) : t.Formed := by
  simp only [swift, leadsIn_mark, leadsIn_opt, leadsIn_inOrder_cons, leadsIn_inOrder_nil, exists_eq_right'] at h
  obtain ⟨u, ⟨hstart, m, hprimary, hsuffixes⟩ | ⟨-, rfl⟩, rfl⟩ := h
  · obtain ⟨tree, htree, hm⟩ := leadsIn_primary hprimary hstart
    have hformed := hcalls _ _ _ hprimary trivial (.opened s)
    refine hs.mark (hprimary.onward.trans hsuffixes.onward) (hcalls _ _ _ hsuffixes ⟨tree, htree, ?_⟩ hformed)
    simpa using hm
  · exact hs.mark (.refl _) (.opened s)

lemma KeepsForms.argumentList (h : LeadsIn n (swift (.argumentList closing)) s t)
    (hmay : (Symbol.argumentList closing).Relies s) (hs : s.Formed) : t.Formed := by
  obtain ⟨u, harguments, rfl⟩ := leadsIn_node.1 h
  exact hs.node harguments.onward (hcalls _ _ _ harguments trivial (.opened s)) (callForm_argumentList harguments hmay)

lemma KeepsForms.argumentItems (h : LeadsIn n (swift (.argumentItems closing)) s t) (hs : s.Formed) : t.Formed := by
  rw [swift] at h
  simp only [leadsIn_firstOf_cons, leadsIn_firstOf_nil] at h
  obtain ⟨-, h⟩ | ⟨-, ⟨-, h⟩ | ⟨-, ⟨-, h⟩ | ⟨-, ⟨-, h⟩ | ⟨-, h⟩⟩⟩⟩ := h
  · exact hcalls.plain h hs rfl
  · exact hcalls.plain h hs rfl
  · exact hcalls.plain h hs rfl
  · obtain ⟨m, hargument, h⟩ := leadsIn_inOrder_cons.1 h
    obtain ⟨u, hbody, rfl⟩ := leadsIn_node.1 hargument
    refine hcalls.plain h (hs.node hbody.onward ?_ (callForm_argument hbody)) rfl
    exact hcalls.plain hbody (.opened s) rfl
  · exact hcalls.plain h hs rfl

/-- A suffix makes a member or a call of the expression that it follows. -/
lemma KeepsForms.suffixes (h : LeadsIn n (swift (.suffixes inCondition)) s t) (hmay : HoldsExpression s)
    (hs : s.Formed) : t.Formed := by
  obtain ⟨tree, htree, hbuilt⟩ := hmay
  have hagain : ∀ {kind : Kind} {children : List Tree} {row : Row},
      LeadsIn n (.call (.suffixes inCondition)) ⟨[.node kind children], row⟩ t → kind.isExpression = true →
      Stage.Formed ⟨[.node kind children], row⟩ → t.Formed :=
    fun h hkind hformed => hcalls _ _ _ h ⟨_, isExpression_node hkind _, rfl⟩ hformed
  simp only [swift, suffixPhrase, callOf, leadsIn_firstOf_cons, leadsIn_firstOf_nil, leadsIn_inOrder_cons,
    leadsIn_inOrder_nil, leadsIn_wrap, leadsIn_take, exists_eq_left, exists_eq_right'] at h
  obtain ⟨hdot, h⟩ | ⟨-, h⟩ := h
  · refine hagain h rfl (hs.take.take.wrap (.inr ?_))
    simp only [reply, Bool.and_eq_true] at hdot
    obtain ⟨dot, rest, htokens, hkind⟩ := exists_of_next hdot.1
    cases rest with
    | nil => simp [htokens] at hdot
    | cons name rest =>
      obtain ⟨htake, hrest⟩ := take_of_cons htokens
      refine ⟨tree, dot, name, ?_, htree, hkind⟩
      rw [(take_of_cons hrest).1, htake, hbuilt]
      rfl
  obtain ⟨hparen, m, ⟨u, ⟨v, hlist, hclosure⟩, rfl⟩, h⟩ | ⟨-, h⟩ := h
  · simp only [sameLine, reply, Bool.and_eq_true] at hparen
    obtain ⟨opening, rest, htokens, hkind⟩ := exists_of_next hparen.1
    have hformed := hcalls _ _ _ hlist ⟨opening, by simp [htokens], .inl hkind⟩ hs
    obtain ⟨list, hv⟩ := leadsIn_argumentList hlist
    rw [hbuilt, List.singleton_append] at hv
    obtain ⟨-, hclosure⟩ | ⟨-, rfl⟩ := leadsIn_opt.1 hclosure
    · obtain ⟨body, hu⟩ := leadsIn_closure hclosure
      refine hagain h rfl ((hcalls _ _ _ hclosure trivial hformed).wrap ⟨tree, htree, .inr (.inl ⟨list, body, ?_⟩)⟩)
      rw [hu, hv]
      rfl
    · exact hagain h rfl (hformed.wrap ⟨tree, htree, .inl ⟨list, hv⟩⟩)
  obtain ⟨hbracket, m, ⟨u, hlist, rfl⟩, h⟩ | ⟨-, h⟩ := h
  · simp only [joined, reply, Bool.and_eq_true] at hbracket
    obtain ⟨opening, rest, htokens, hkind⟩ := exists_of_next hbracket.1
    have hformed := hcalls _ _ _ hlist ⟨opening, by simp [htokens], .inr hkind⟩ hs
    obtain ⟨list, hu⟩ := leadsIn_argumentList hlist
    rw [hbuilt, List.singleton_append] at hu
    exact hagain h rfl (hformed.wrap ⟨tree, htree, .inl ⟨list, hu⟩⟩)
  obtain ⟨-, m, ⟨u, hclosure, rfl⟩, h⟩ | ⟨-, h⟩ := h
  · obtain ⟨body, hu⟩ := leadsIn_closure hclosure
    rw [hbuilt, List.singleton_append] at hu
    exact hagain h rfl ((hcalls _ _ _ hclosure trivial hs).wrap ⟨tree, htree, .inr (.inr ⟨body, hu⟩)⟩)
  obtain ⟨-, h⟩ | ⟨-, h⟩ := h
  · exact hagain h rfl (hs.take.wrap trivial)
  · exact hcalls.plain h hs rfl

end

/-- All calls, names and arguments of a tree have their form. -/
def Formed (tree : Tree) : Prop :=
  ∀ path kind children, tree.sub? path = some (.node kind children) → CallForm kind children

lemma Formed.form (h : Formed (.node kind children)) : CallForm kind children :=
  h [] kind children (by simp)

lemma Formed.sub? {tree part : Tree} (h : Formed tree) {path : Path} (hpath : tree.sub? path = some part) :
    Formed part := fun q kind children hq => h (path ++ q) kind children ((sub?_append_some hpath q).trans hq)

lemma Formed.child (h : Formed (.node kind children)) {child : Tree} (hchild : child ∈ children) : Formed child := by
  obtain ⟨i, hi⟩ := exists_sub?_of_mem (.node kind children) hchild
  exact h.sub? hi

/-- In the tree that is read all calls, names and arguments have their form. -/
theorem formed_parseTokens (tokens : List Token) : Formed (parseTokens tokens).bare := by
  have hevery : (parseTokens tokens).bare.Every (fun kind children _ => CallForm kind children) [] := by
    refine every_bare_parseTokens tokens (fun _ => trivial) fun n s t h hs => ?_
    refine LeadsIn.every inCall Symbol.isRelying Symbol.Relies
      (fun _ children _ hkind => callForm_of_not_inCall hkind children)
      (fun _ s hX => relies_of_not_isRelying hX s) ?_ h trivial hs
    intro n X s t hplain hcalls h hmay hs
    obtain rfl | ⟨inCondition, rfl⟩ | ⟨inCondition, rfl⟩ | ⟨closing, rfl⟩ | ⟨closing, rfl⟩ := plain_of_not_inCall hplain
    · exact KeepsForms.primary hcalls h hs
    · exact KeepsForms.suffixes hcalls h hmay hs
    · exact KeepsForms.postfixed hcalls h hs
    · exact KeepsForms.argumentList hcalls h hmay hs
    · exact KeepsForms.argumentItems hcalls h hs
  intro path kind children hpath
  exact (every_node.1 (hevery.sub? hpath)).1

end Grammar

end SwiftTidy

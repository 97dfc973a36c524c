import SwiftTidy.Proofs.Operands

/-!
# Operations

Two operands with an operator between them are read as an operation, and reading goes on with what comes behind
(`Operator.runs`). An expression is an operation or a choice, or it is an operand (`runs_expr_cases`).
-/

namespace SwiftTidy.Grammar

open Phrase Test

variable {s t : Progress} {r rest lead : List Token} {token : Token} {inCondition : Bool}

/-! ## Expressions -/

lemma someToken_of_binaryOperator (h : binaryOperator.holds r = true) : someToken.holds r = true := by
  rw [binaryOperator, holds_either, Bool.or_eq_true] at h
  obtain h | h := h
  · exact holds_someToken h
  · exact holds_someToken (Bool.and_eq_true_iff.1 (Bool.and_eq_true_iff.1 h).1).1

/-- Operators and alternatives make an operation or a choice of what stands before them, or there are none. -/
lemma runs_exprSuffixes (h : Runs swift (.call (.exprSuffixes inCondition)) s t) :
    t = s ∨ ∃ kind children, t.built = [.node kind children] ∧ (kind = .binaryExpr ∨ kind = .ternaryExpr) := by
  have hall : ∀ n (s : Progress), s.rest.length < n → Runs swift (.call (.exprSuffixes inCondition)) s t →
      t = s ∨ ∃ kind children, t.built = [.node kind children] ∧ (kind = .binaryExpr ∨ kind = .ternaryExpr) := by
    intro n
    induction n with
    | zero => exact fun s hs => absurd hs (Nat.not_lt_zero _)
    | succ n ih =>
      intro s hs h
      have hagain {body : List (Phrase Symbol)} {v : Progress} (htest : binaryOperator.holds s.rest = true)
          (hv : Runs swift (inOrder (take :: body)) s v)
          (h : Runs swift (.call (.exprSuffixes inCondition)) ⟨[.node .binaryExpr v.built], v.rest⟩ t) :
          t = s ∨ ∃ kind children, t.built = [.node kind children] ∧ (kind = .binaryExpr ∨ kind = .ternaryExpr) := by
        obtain ⟨m, htake, hrest⟩ := runs_inOrder_cons.1 hv
        have hlt := length_lt_of_take (someToken_of_binaryOperator htest) htake
        have hle := hrest.rest_suffix.length_le
        have hlt' : (⟨[.node .binaryExpr v.built], v.rest⟩ : Progress).rest.length < n := by
          change v.rest.length < n
          omega
        obtain rfl | hnode := ih _ hlt' h
        · exact .inr ⟨_, _, rfl, .inl rfl⟩
        · exact .inr hnode
      rw [runs_call_iff, swift, exprSuffixPhrase] at h
      simp only [firstOf, List.foldr_cons, List.foldr_nil, runs_choose_iff, runs_skip_iff] at h
      obtain ⟨-, h⟩ | ⟨-, ⟨htest, h⟩ | ⟨-, ⟨htest, h⟩ | ⟨-, rfl⟩⟩⟩ := h
      · obtain ⟨u, -, rfl⟩ := runs_wrap_iff.1 h
        exact .inr ⟨_, _, rfl, .inr rfl⟩
      · obtain ⟨_, hwrap, h⟩ := runs_inOrder_cons.1 h
        obtain ⟨v, hv, rfl⟩ := runs_wrap_iff.1 hwrap
        exact hagain (Bool.and_eq_true_iff.1 htest).1 hv (runs_inOrder_singleton.1 h)
      · obtain ⟨_, hwrap, h⟩ := runs_inOrder_cons.1 h
        obtain ⟨v, hv, rfl⟩ := runs_wrap_iff.1 hwrap
        exact hagain htest hv (runs_inOrder_singleton.1 h)
      · exact .inl rfl
  exact hall _ s (Nat.lt_succ_self _) h

lemma swift_expr : swift (.expr inCondition) =
    .mark (opt (nextAny operandKinds) <| inOrder [call (.unary inCondition), call (.exprSuffixes inCondition)]) := rfl

/-- An expression is one tree at most, and an operand unless it is an operation or a choice. -/
lemma runs_expr_cases (hgap : gap r = []) (h : Runs swift (.call (.expr inCondition)) ⟨[], r⟩ t) :
    t.built = [] ∨ ∃ kind children, t.built = [.node kind children] ∧ (kind = .binaryExpr ∨ kind = .ternaryExpr ∨
      Runs swift (.call (.unary inCondition)) ⟨[], r⟩ t) := by
  rw [runs_call_iff, swift_expr, runs_mark_iff, flush_of_gap hgap] at h
  obtain ⟨u, hu, rfl⟩ := h
  rw [runs_opt_iff, runs_inOrder_cons] at hu
  obtain ⟨-, m, hunary, hsuffixes⟩ | ⟨-, rfl⟩ := hu
  · obtain rfl | ⟨kind, children, hbuilt, hkind⟩ := runs_exprSuffixes (runs_inOrder_singleton.1 hsuffixes)
    · obtain hnil | ⟨kind, children, hbuilt⟩ := built_unary hgap hunary
      · exact .inl hnil
      · exact .inr ⟨kind, children, hbuilt, .inr (.inr hunary)⟩
    · exact .inr ⟨kind, children, hbuilt, hkind.elim .inl fun h => .inr (.inl h)⟩
  · exact .inl rfl


/-- The reader of an operand who comes to the tokens of a tree, with others behind them, reads this tree. -/
def ReadsOperand (inCondition : Bool) (tree : Tree) (rest : List Token) : Prop :=
  Runs swift (.call (.unary inCondition)) ⟨[], tree.leaves ++ rest⟩ ⟨[tree], rest⟩

lemma ReadsOperand.runs {tree : Tree} (h : ReadsOperand inCondition tree rest) (hgap : gap (tree.leaves ++ rest) = [])
    (hlead : ∀ token ∈ lead, token.isTrivia = true) (built : List Tree) :
    Runs swift (.call (.unary inCondition)) ⟨built, lead ++ (tree.leaves ++ rest)⟩
      ⟨built ++ (lead.map .leaf ++ [tree]), rest⟩ := by
  rw [runs_unary_iff, flush_append hlead hgap]
  exact ⟨_, h, by rw [List.append_assoc]⟩

/-- A literal is read wherever no suffix comes behind it. -/
lemma readsOperand_literal (htoken : [Kind.trueKw, .falseKw, .nilKw].contains token.kind = true)
    (hbare : Bare inCondition rest) :
    token.isTrivia = false ∧ ReadsOperand inCondition (.node .literalExpr [.leaf token]) rest := by
  have hkinds : token.kind = .trueKw ∨ token.kind = .falseKw ∨ token.kind = .nilKw := by simpa using htoken
  have hsolid : token.isTrivia = false := by rcases hkinds with h | h | h <;> rw [Token.isTrivia, h] <;> rfl
  have hgap := gap_cons (r := rest) hsolid
  have htest (p : Kind → Bool) : (Test.sees 0 p).holds (token :: rest) = p token.kind := by
    simp [Token.significant, hsolid]
  have hliteral : Runs swift (.node .literalExpr .take) ⟨[], token :: rest⟩
      ⟨[.node .literalExpr [.leaf token]], rest⟩ := by
    rw [runs_node_iff, flush_of_gap hgap]
    exact ⟨_, runs_take_next hsolid [], rfl⟩
  refine ⟨hsolid, runs_unary_of_suffixed hgap ((htest _).trans ?_)
    (.call (.no ((htest _).trans ?_) (.yes ((htest _).trans ?_) hliteral))) .refl hbare⟩
  all_goals rcases hkinds with h | h | h <;> rw [h] <;> rfl

/-- A value is read as an argument without a label, with the given tokens behind it. -/
def Argued (value : Tree) (rest : List Token) : Prop :=
  ∃ r, gap r = [] ∧ label.holds r = false ∧ exprStart.holds r = true ∧
    Runs swift (.call (.expr false)) ⟨[], r⟩ ⟨[value], rest⟩

/-- What is an argument is read in parentheses, wherever no suffix comes behind them. -/
lemma readsOperand_group {value : Tree} (h : Argued value (⟨.rparen, ")"⟩ :: rest)) (hbare : Bare inCondition rest) :
    ReadsOperand inCondition
      (.node .tupleExpr [.leaf ⟨.lparen, "("⟩, .node .argument [value], .leaf ⟨.rparen, ")"⟩]) rest := by
  obtain ⟨r, hgap, hlabel, hstart, hvalue⟩ := h
  obtain ⟨first, others, hr, hfirst⟩ := exists_cons_of_holds (Bool.and_eq_true_iff.1 hstart).1
  rw [pastGap_of_gap hgap] at hr
  have hrow : value.leaves ++ ⟨.rparen, ")"⟩ :: rest = r := by simpa [Progress.tokens] using hvalue.tokens_eq
  have hopening : Token.isTrivia ⟨.lparen, "("⟩ = false := rfl
  have hclosing : Token.isTrivia ⟨.rparen, ")"⟩ = false := rfl
  have hnot (kind : Kind) (hkind : operandKinds.contains kind = false) : (next kind).holds r = false := by
    refine holds_eq_false_of_sees (Bool.and_eq_true_iff.1 hstart).1 fun other hother => beq_eq_false_iff_ne.2 ?_
    rintro rfl
    rw [hkind] at hother
    cases hother
  have hitem : Runs swift (.call (.argumentItems .rparen)) ⟨[.leaf ⟨.lparen, "("⟩], r⟩
      ⟨[.leaf ⟨.lparen, "("⟩, .node .argument [value]], ⟨.rparen, ")"⟩ :: rest⟩ := by
    have hargument : Runs swift (.node .argument (inOrder [opt label <| inOrder [take, take],
        firstOf [(exprStart, call (.expr false)), (nextAny [.rparen, .comma], skip)] (call .error)]))
        ⟨[.leaf ⟨.lparen, "("⟩], r⟩ ⟨[.leaf ⟨.lparen, "("⟩, .node .argument [value]], ⟨.rparen, ")"⟩ :: rest⟩ := by
      rw [runs_node_iff, flush_of_gap hgap]
      exact ⟨_, .seq (.no hlabel (.skip _)) (.seq (.yes hstart hvalue) (.skip _)), rfl⟩
    refine .call (.no ?_ (.no ?_ (.no ?_ (.yes ?_ (.seq hargument (.seq (.call (.yes ?_ (.skip _))) (.skip _)))))))
    · exact hnot .rparen rfl
    · exact hnot .comma rfl
    · refine holds_eq_false_of_sees (Bool.and_eq_true_iff.1 hstart).1 fun kind hkind => ?_
      rw [Bool.eq_false_iff]
      intro hcloser
      obtain rfl | rfl | rfl : kind = .rbrace ∨ kind = .rparen ∨ kind = .rbracket := by simpa using hcloser
      all_goals cases hkind
    · exact holds_someToken (Bool.and_eq_true_iff.1 hstart).1
    · simp [next, Token.significant, hclosing]
  have hgroup : Runs swift (.node .tupleExpr (.call (.arguments .rparen))) ⟨[], ⟨.lparen, "("⟩ :: r⟩
      ⟨[.node .tupleExpr [.leaf ⟨.lparen, "("⟩, .node .argument [value], .leaf ⟨.rparen, ")"⟩]], rest⟩ := by
    rw [runs_node_iff, flush_of_gap (gap_cons hopening)]
    refine ⟨_, .call (.seq (runs_take_next hopening []) (.seq hitem (.seq (.yes ?_
      (runs_take_next hclosing _)) (.skip _)))), rfl⟩
    simp [next, Token.significant, hclosing]
  have htest (p : Kind → Bool) : (Test.sees 0 p).holds (⟨.lparen, "("⟩ :: r) = p .lparen := by
    simp [Token.significant, hopening]
  have hreads := runs_unary_of_suffixed (gap_cons hopening) (htest _)
    (.call (.no (htest _) (.no (htest _) (.yes (htest _) hgroup)))) .refl hbare
  rw [ReadsOperand]
  simpa [hrow] using hreads

/-! ## Operations -/

/-- An operand and what goes on with it. -/
def exprChain (inCondition : Bool) : Phrase Symbol :=
  .seq (.call (.unary inCondition)) (.seq (.call (.exprSuffixes inCondition)) .skip)

/-- The tokens of an operator that stands between two operands. -/
structure Operator where
  /-- The tokens, the first of which tells that an operator comes. -/
  tokens : List Token
  head_tokens : tokens.head?.any (fun token => [Kind.operator, .langle, .rangle].contains token.kind) = true
  tail_tokens : ∀ token ∈ tokens.tail, token.kind.isOperatorPart = true

/-- The operator of some tokens, if they are those of one. -/
def Operator.ofTokens? (tokens : List Token) : Option Operator :=
  if h : tokens.head?.any (fun token => [Kind.operator, .langle, .rangle].contains token.kind) = true ∧
      ∀ token ∈ tokens.tail, token.kind.isOperatorPart = true then some ⟨tokens, h.1, h.2⟩ else none

/-- The tokens of an operator after its first one. -/
lemma runs_operatorRest {tokens : List Token} (htokens : ∀ token ∈ tokens, token.kind.isOperatorPart = true)
    (hr : Test.spaced.holds r = true) (built : List Tree) :
    Runs swift (.call .operatorRest) ⟨built, tokens ++ r⟩ ⟨built ++ tokens.map .leaf, r⟩ := by
  induction tokens generalizing built with
  | nil =>
    have hruns : Runs swift (.call .operatorRest) ⟨built, r⟩ ⟨built, r⟩ := .call (.no (by simp [hr]) (.skip _))
    simpa using hruns
  | cons token tokens ih =>
    have hpart := htokens token List.mem_cons_self
    have htoken : token.isTrivia = false := by
      have hall : ∀ kind : Kind, kind.isOperatorPart = true → kind.isTrivia = false := by
        intro kind
        cases kind <;> decide
      exact hall _ hpart
    refine .call (.yes ?_ (.seq (runs_take_next htoken built) (.seq ?_ (.skip _))))
    · simp [holds, ahead?, gap, htoken, hpart]
    · have hrest := ih (fun token htoken => htokens token (List.mem_cons_of_mem _ htoken)) (built ++ [.leaf token])
      rwa [List.append_assoc] at hrest

namespace Operator

/-- The tokens between two operands, with a space on either side. -/
def between (operator : Operator) : List Token :=
  ⟨.whitespace, " "⟩ :: operator.tokens ++ [⟨.whitespace, " "⟩]

/-- The operation with the given operands. -/
def tree (operator : Operator) (left right : Tree) : Tree :=
  .node .binaryExpr (left :: (operator.between.map .leaf ++ [right]))

variable {operator : Operator}

lemma leaves_tree (left right : Tree) :
    (operator.tree left right).leaves = left.leaves ++ (operator.between ++ right.leaves) := by
  simp [tree]

lemma exists_cons : ∃ first tokens, operator.tokens = first :: tokens ∧ first.isTrivia = false ∧
    (first.kind = .operator ∨ first.kind = .langle ∨ first.kind = .rangle) := by
  obtain ⟨tokens, hhead, htail⟩ := operator
  cases tokens with
  | nil => cases hhead
  | cons first tokens =>
    have hfirst : first.kind = .operator ∨ first.kind = .langle ∨ first.kind = .rangle := by simpa using hhead
    refine ⟨first, tokens, rfl, ?_, hfirst⟩
    rcases hfirst with h | h | h <;> simp [Token.isTrivia, h, Kind.isTrivia]

lemma bare_between : Bare inCondition (operator.between ++ rest) := by
  obtain ⟨first, tokens, htokens, hsolid, hfirst⟩ := operator.exists_cons
  refine bare_of_next ?_
  have hspace : Token.isTrivia ⟨.whitespace, " "⟩ = true := rfl
  simp only [nextAny, between, htokens, holds_sees, Token.significant, List.cons_append, List.filter_cons, hsolid,
    hspace]
  rcases hfirst with h | h | h <;> simp [h]

/-- An operation is read where both of its sides are operands, and what goes on with it is, too. -/
theorem runs {left right : Tree} (hleft : ReadsOperand inCondition left (operator.between ++ right.leaves ++ rest))
    (hright : ReadsOperand inCondition right rest) (hgap : gap (right.leaves ++ rest) = [])
    (ht : Runs swift (.seq (.call (.exprSuffixes inCondition)) .skip) ⟨[operator.tree left right], rest⟩ t) :
    Runs swift (exprChain inCondition) ⟨[], (operator.tree left right).leaves ++ rest⟩ t := by
  obtain ⟨first, tokens, htokens, hsolid, hfirst⟩ := operator.exists_cons
  have htail : ∀ token ∈ tokens, token.kind.isOperatorPart = true := by simpa [htokens] using operator.tail_tokens
  let space : Token := ⟨.whitespace, " "⟩
  have hspace : ∀ token ∈ [space], token.isTrivia = true := by decide
  have hbehind : operator.between ++ right.leaves ++ rest =
      [space] ++ first :: (tokens ++ ([space] ++ (right.leaves ++ rest))) := by
    simp [between, htokens, space]
  have hleaves : (operator.tree left right).leaves ++ rest =
      left.leaves ++ (operator.between ++ right.leaves ++ rest) := by
    simp [leaves_tree]
  have htest (p : Kind → Bool) : (Test.sees 0 p).holds (operator.between ++ right.leaves ++ rest) = p first.kind := by
    simp [hbehind, hsolid, Token.significant, hspace space (by simp)]
  have hbody : Runs swift (.wrap .binaryExpr (inOrder [take, call .operatorRest, call (.unary inCondition)]))
      ⟨[left], operator.between ++ right.leaves ++ rest⟩ ⟨[operator.tree left right], rest⟩ := by
    have hsides := (runs_take hspace hsolid [left]).seq
      ((runs_operatorRest htail rfl _).seq ((hright.runs hgap hspace _).seq (.skip _)))
    rw [hbehind]
    simp only [tree, between, htokens, List.cons_append, List.map_cons, List.map_append, List.append_assoc]
    exact .wrap hsides
  obtain ⟨u, ht, hskip⟩ := runs_seq_iff.1 ht
  obtain rfl := runs_skip_iff.1 hskip
  rw [hleaves]
  refine .seq hleft (.seq (.call (.no ?_ (.no ?_ (.yes ?_ (.seq hbody (.seq ht (.skip _))))))) (.skip _))
  · rw [holds_both, next, htest]
    rcases hfirst with h | h | h <;> simp [h]
  · rw [holds_both, next, htest]
    rcases hfirst with h | h | h <;> simp [h]
  · rw [binaryOperator, holds_either, nextAny, htest]
    rcases hfirst with h | h | h <;> simp [h]

end Operator

end SwiftTidy.Grammar

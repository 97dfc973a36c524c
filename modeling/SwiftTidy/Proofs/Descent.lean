import SwiftTidy.Linter
import SwiftTidy.Proofs.Clearing
import SwiftTidy.Proofs.Rewriting
import SwiftTidy.Proofs.SwiftShape
import SwiftTidy.Rules.Builtin

/-!
# Where the tokens of a corrected tree come from

Comparisons are put together with a few tokens of their own. Apart from these a corrected tree consists of tokens of
the text, in the order of the text (`Linter.descends_correct`).
-/

namespace SwiftTidy

namespace Tree

variable {child tree part new : Tree} {children : List Tree} {i : Nat} {path : Path}

lemma leaves_sublist_of_mem (h : child ∈ children) : child.leaves.Sublist (leavesOf children) := by
  obtain ⟨front, back, rfl⟩ := List.append_of_mem h
  simp only [leavesOf_append, leavesOf_cons]
  exact (List.sublist_append_left _ _).trans (List.sublist_append_right _ _)

lemma leaves_sublist_of_mem_children (h : child ∈ tree.children) : child.leaves.Sublist tree.leaves := by
  cases tree with
  | leaf token => simp [children] at h
  | node kind children => exact leaves_sublist_of_mem h

lemma exists_leaves_split (h : tree.sub? path = some part) :
    ∃ front back, tree.leaves = front ++ part.leaves ++ back ∧
      ∀ new : Tree, (tree.replaceAt path new).leaves = front ++ new.leaves ++ back := by
  induction path, tree, h using sub?_induction with
  | here => exact ⟨[], [], by simp, fun new => by simp [replaceAt]⟩
  | inside kind before child after path h ih =>
    obtain ⟨front, back, hleaves, hnew⟩ := ih
    exact ⟨leavesOf before ++ front, back ++ leavesOf after, by simp [hleaves], fun new => by simp [hnew]⟩

/-- A row still begins as it did after an expression was put in for a node. -/
lemma describes_exchange {first : First} {before after : List Tree}
    (hfirst : first.Describes (before ++ child :: after))
    (hpart : child.sub? path = some part) (hnode : part.isNode = true) (hnew : new.isNode = true)
    (hkind : new.kind.isExpression = true) : first.Describes (before ++ child.replaceAt path new :: after) := by
  cases first with
  | nothing => simp [First.Describes] at hfirst
  | anything => trivial
  | token =>
    obtain ⟨token, rest, hrow, htoken⟩ := hfirst
    cases before with
    | cons head before =>
      obtain ⟨rfl, rfl⟩ := List.cons.inj hrow
      exact ⟨token, _, rfl, htoken⟩
    | nil =>
      exfalso
      obtain ⟨rfl, rfl⟩ := List.cons.inj hrow
      cases path <;> simp [sub?] at hpart
      simp [← hpart, isNode] at hnode
  | expression =>
    obtain ⟨kind, inner, rest, hrow, hexpression⟩ := hfirst
    cases before with
    | cons head before =>
      obtain ⟨rfl, rfl⟩ := List.cons.inj hrow
      exact ⟨kind, inner, _, rfl, hexpression⟩
    | nil =>
      obtain ⟨rfl, rfl⟩ := List.cons.inj hrow
      cases path with
      | nil =>
        cases new with
        | leaf token => simp [isNode] at hnew
        | node kind' inner' => exact ⟨kind', inner', _, rfl, hkind⟩
      | cons j path => exact ⟨kind, _, _, rfl, hexpression⟩

/-- An expression can be put in for any node. -/
lemma Shaped.replaceAt (h : tree.Shaped) (hpart : tree.sub? path = some part) (hnode : part.isNode = true)
    (hshaped : new.Shaped) (hnew : new.isNode = true) (hkind : new.kind.isExpression = true) :
    (tree.replaceAt path new).Shaped := by
  induction path, tree, hpart using sub?_induction with
  | here => exact hshaped
  | inside kind before child after path hpart ih =>
    obtain ⟨first, hbegins, hfirst⟩ := h.begins
    rw [replaceAt_node_length]
    refine shaped_node first hbegins (describes_exchange hfirst hpart hnode hnew hkind) fun other hother => ?_
    rcases List.mem_append.1 hother with hother | hother
    · exact h.child (by simp [Tree.children, hother])
    rcases List.mem_cons.1 hother with rfl | hother
    · exact ih (h.child (by simp [Tree.children]))
    · exact h.child (by simp [Tree.children, hother])

end Tree

namespace Part

variable {part child : Part}

lemma mem_children_of_mem_nodes (h : child ∈ part.nodes) : child ∈ part.children := (List.mem_filter.1 h).1

lemma mem_children_of_expression? (h : part.expression? = some child) :
    child ∈ part.children ∧ child.kind.isExpression = true := by
  obtain ⟨hmem, hexpression⟩ := List.mem_filter.1 (List.mem_of_head? h)
  exact ⟨mem_children_of_mem_nodes hmem, hexpression⟩

lemma exists_argumentList (h : child ∈ part.arguments) :
    ∃ list ∈ part.children, list.kind = .argumentList ∧ child ∈ list.children := by
  rw [arguments] at h
  cases hlist : part.argumentList? with
  | none => simp [hlist] at h
  | some list =>
    rw [hlist] at h
    exact ⟨list, mem_children_of_mem_nodes (List.mem_of_find?_eq_some hlist), by simpa using List.find?_some hlist,
      mem_children_of_mem_nodes (List.mem_filter.1 h).1⟩

lemma tree_mem_of_mem_children (h : child ∈ part.children) : child.tree ∈ part.tree.children := by
  obtain ⟨i, hi, rfl⟩ := List.mem_mapIdx.1 h
  exact List.getElem_mem hi

lemma tree_mem_of_expression? (h : part.expression? = some child) : child.tree ∈ part.tree.children :=
  tree_mem_of_mem_children (mem_children_of_expression? h).1

lemma exists_list_of_mem_arguments (h : child ∈ part.arguments) :
    ∃ list : Part, list.tree ∈ part.tree.children ∧ list.kind = .argumentList ∧ child.tree ∈ list.tree.children := by
  obtain ⟨list, hlist, hkind, hchild⟩ := exists_argumentList h
  exact ⟨list, tree_mem_of_mem_children hlist, hkind, tree_mem_of_mem_children hchild⟩

lemma leaves_sublist_of_mem_arguments (h : child ∈ part.arguments) : child.tree.leaves.Sublist part.tree.leaves := by
  obtain ⟨list, hlist, -, hchild⟩ := exists_list_of_mem_arguments h
  exact (Tree.leaves_sublist_of_mem_children hchild).trans (Tree.leaves_sublist_of_mem_children hlist)

/-- What is called stands before the arguments. -/
lemma callee_append_arguments (hpart : part.tree.Shaped) (hnode : part.tree.isNode = true)
    (hkind : part.kind = .callExpr) {callee argument : Part} (hcallee : part.expression? = some callee)
    (hargument : argument ∈ part.arguments) (hne : callee.kind ≠ .argumentList) :
    (callee.tree.leaves ++ argument.tree.leaves).Sublist part.tree.leaves := by
  obtain ⟨list, hlist, hlistKind, hchild⟩ := exists_list_of_mem_arguments hargument
  obtain ⟨path, tree⟩ := part
  obtain ⟨children, rfl⟩ := Tree.exists_node_of_kind hnode hkind
  obtain ⟨kind, inner, rest, rfl, hexpression⟩ := hpart.begins_expression rfl
  have hhead : callee.tree = .node kind inner := by
    have := head?_childExpressions ⟨path, .node .callExpr (.node kind inner :: rest)⟩
    rw [hcallee] at this
    simpa [Tree.childExpressions, Tree.childNodes, Tree.children, Tree.isNode, Tree.kind, hexpression] using this.symm
  have hrest : list.tree ∈ rest := by
    rcases List.mem_cons.1 hlist with heq | hmem
    · exact absurd (by rw [Part.kind, hhead, ← heq]; exact hlistKind) hne
    · exact hmem
  rw [hhead]
  refine List.Sublist.append (List.Sublist.refl _) ?_
  exact (Tree.leaves_sublist_of_mem_children hchild).trans (Tree.leaves_sublist_of_mem hrest)

end Part

namespace Rules.Expectation

/-- The tokens that comparisons are put together with: blanks, parentheses, operators and literals. -/
def connectives : List Token :=
  [⟨.whitespace, " "⟩, ⟨.lparen, "("⟩, ⟨.rparen, ")"⟩] ++ Matcher.all.flatMap fun matcher =>
    matcher.literal?.toList ++ (matcher.operator :: matcher.negated?.toList).flatMap tokensOf

/-- The tokens of a row that are none of these. -/
def original (row : List Token) : List Token := row.filter (· ∉ connectives)

@[simp] lemma original_nil : original [] = [] := rfl

@[simp] lemma original_append (front back : List Token) :
    original (front ++ back) = original front ++ original back := by
  simp [original]

lemma original_cons_of_mem {token : Token} (h : token ∈ connectives) (row : List Token) :
    original (token :: row) = original row := by
  simp [original, h]

variable {right : Tree} {row : List Token}

lemma original_eq_nil (h : ∀ token ∈ row, token ∈ connectives) : original row = [] := by
  simpa [original, List.filter_eq_nil_iff] using h

lemma original_sublist {more : List Token} (h : row.Sublist more) : (original row).Sublist (original more) :=
  h.filter _

variable {tree : Tree} {path : Path} {chain : Chain} {call member subject argument matching : Part}

section

variable (h : Links tree path chain call member subject argument matching)

include h

lemma Links.matcher_mem : chain.matcher ∈ Matcher.all := by
  obtain ⟨name, -, hname⟩ := h.matcher
  exact List.mem_of_find?_eq_some hname

lemma Links.operator_mem : ∀ token ∈ tokensOf chain.operator, token ∈ connectives := by
  obtain ⟨-, negated, -, -, hoperator⟩ := h.negated
  intro token htoken
  refine List.mem_append_right _ (List.mem_flatMap.2 ⟨chain.matcher, h.matcher_mem, ?_⟩)
  refine List.mem_append_right _ (List.mem_flatMap.2 ⟨chain.operator, ?_, htoken⟩)
  rw [Matcher.operator?] at hoperator
  split at hoperator
  · simp [hoperator]
  · simp_all

lemma Links.exists_operand {operand : Tree} (hoperand : chain.argument? = some operand) :
    ∃ first value, first ∈ matching.arguments ∧ first.expression? = some value ∧ value.tree = operand := by
  have hvalue := h.operand
  rw [operand?, hoperand] at hvalue
  cases hfirst : matching.arguments.head? with
  | none => simp [hfirst] at hvalue
  | some first =>
    simp only [hfirst, Option.map_map, Option.map_eq_some_iff] at hvalue
    obtain ⟨value, hexpression, hvalue⟩ := hvalue
    exact ⟨first, value, List.mem_of_head? hfirst, hexpression, by simpa using hvalue⟩

/-- What a chain compares stands in the call in the order of the comparison. -/
lemma Links.leaves_sublist (hshaped : call.tree.Shaped) :
    chain.subject.leaves.Sublist call.tree.leaves ∧
      ∀ operand, chain.argument? = some operand →
        (chain.subject.leaves ++ operand.leaves).Sublist call.tree.leaves := by
  have hsubject : chain.subject.leaves.Sublist member.tree.leaves := by
    rw [h.subject_tree]
    exact Tree.leaves_sublist_of_mem_children (Part.tree_mem_of_expression? h.subject_eq)
  refine ⟨hsubject.trans (Tree.leaves_sublist_of_mem_children (Part.tree_mem_of_expression? h.member_eq)), ?_⟩
  intro operand hoperand
  have hargument : argument ∈ call.arguments := by simp [h.arguments_eq]
  refine List.Sublist.trans (hsubject.append ?_)
    (Part.callee_append_arguments hshaped h.isCall.1 h.isCall.2 h.member_eq hargument (by simp [h.member_kind]))
  refine List.Sublist.trans ?_ (Tree.leaves_sublist_of_mem_children (Part.tree_mem_of_expression? h.matching_eq))
  obtain ⟨first, value, hfirst, hvalue, rfl⟩ := h.exists_operand hoperand
  exact (Tree.leaves_sublist_of_mem_children (Part.tree_mem_of_expression? hvalue)).trans
    (Part.leaves_sublist_of_mem_arguments hfirst)

end

lemma leaves_comparison (chain : Chain) (right : Tree) :
    (chain.comparison right).leaves =
      chain.subject.leaves ++ ⟨.whitespace, " "⟩ :: tokensOf chain.operator ++ ⟨.whitespace, " "⟩ :: right.leaves := by
  simp [Chain.comparison]

variable (h : Links tree path chain call member subject argument matching)

include h

/-- What stands to the right of the operator: a literal, or the operand, perhaps in parentheses. -/
lemma right?_cases (hright : chain.right? = some right) :
    (∃ literal ∈ connectives, literal.isTrivia = false ∧ right = .node .literalExpr [.leaf literal]) ∨
      ∃ operand, chain.argument? = some operand ∧ (right = operand ∨ needsParentheses operand = true ∧
        right = .node .tupleExpr [.leaf ⟨.lparen, "("⟩, operand, .leaf ⟨.rparen, ")"⟩]) := by
  rw [Chain.right?] at hright
  split at hright
  next literal hliteral =>
    have hsolid : ∀ matcher ∈ Matcher.all, ∀ literal ∈ matcher.literal?, literal.isTrivia = false := by decide
    refine Or.inl ⟨literal, ?_, hsolid _ h.matcher_mem _ hliteral, by simpa using hright.symm⟩
    refine List.mem_append_right _ (List.mem_flatMap.2 ⟨chain.matcher, h.matcher_mem, ?_⟩)
    simp [hliteral]
  next operand hnone hoperand =>
    refine Or.inr ⟨operand, hoperand, ?_⟩
    split at hright
    next hneeds => exact Or.inr ⟨hneeds, by simpa using hright.symm⟩
    next => exact Or.inl (by simpa using hright.symm)
  next => simp at hright

/-- Apart from connectives a comparison consists of tokens of the call, in their order. -/
lemma Links.original_comparison (hshaped : call.tree.Shaped) (hright : chain.right? = some right) :
    (original (chain.comparison right).leaves).Sublist (original call.tree.leaves) := by
  obtain ⟨hsubject, hoperand⟩ := h.leaves_sublist hshaped
  have hspace : (⟨.whitespace, " "⟩ : Token) ∈ connectives := by simp [connectives]
  have hopen : (⟨.lparen, "("⟩ : Token) ∈ connectives := by simp [connectives]
  have hclose : (⟨.rparen, ")"⟩ : Token) ∈ connectives := by simp [connectives]
  have hwhole : original (chain.comparison right).leaves = original chain.subject.leaves ++ original right.leaves := by
    simp [leaves_comparison, original_cons_of_mem hspace, original_eq_nil h.operator_mem]
  rw [hwhole]
  rcases right?_cases h hright with ⟨literal, hliteral, -, rfl⟩ | ⟨operand, hargument, hright⟩
  · have hnil : original (Tree.node .literalExpr [.leaf literal]).leaves = [] :=
      original_eq_nil (by simpa using hliteral)
    rw [hnil, List.append_nil]
    exact original_sublist hsubject
  · have hsame : original right.leaves = original operand.leaves := by
      rcases hright with rfl | ⟨-, rfl⟩
      · rfl
      · simp [original_cons_of_mem hopen, original_cons_of_mem hclose]
    rw [hsame, ← original_append]
    exact original_sublist (hoperand operand hargument)

/-- What trees hand down to their children a chain hands down to the call of its matcher and to what it compares. -/
lemma Links.hand_down {P : Tree → Prop} (hchild : ∀ {tree child}, P tree → child ∈ tree.children → P child)
    (hcall : P call.tree) :
    P chain.subject ∧ P matching.tree ∧ ∀ operand, chain.argument? = some operand → P operand := by
  have hmem : argument ∈ call.arguments := by simp [h.arguments_eq]
  obtain ⟨list, hlist, -, hargument⟩ := Part.exists_list_of_mem_arguments hmem
  have hmatching := hchild (hchild (hchild hcall hlist) hargument) (Part.tree_mem_of_expression? h.matching_eq)
  refine ⟨?_, hmatching, fun operand hoperand => ?_⟩
  · rw [h.subject_tree]
    exact hchild (hchild hcall (Part.tree_mem_of_expression? h.member_eq)) (Part.tree_mem_of_expression? h.subject_eq)
  · obtain ⟨first, value, hfirst, hvalue, rfl⟩ := h.exists_operand hoperand
    obtain ⟨inner, hinner, -, hfirst⟩ := Part.exists_list_of_mem_arguments hfirst
    exact hchild (hchild (hchild hmatching hinner) hfirst) (Part.tree_mem_of_expression? hvalue)

/-- A comparison has the shape that is expected of it. -/
lemma Links.shaped_comparison (hshaped : call.tree.Shaped) (hright : chain.right? = some right) :
    (chain.comparison right).Shaped := by
  obtain ⟨hsubject, -, hshapedOperand⟩ := h.hand_down Tree.Shaped.child hshaped
  have hfirst : ∃ inner, chain.subject = .node .callExpr inner := by
    have hcall := h.subject_isCall
    rw [IsCall, Part.kind, ← h.subject_tree] at hcall
    cases hs : chain.subject with
    | leaf token => simp [hs, Tree.isNode] at hcall
    | node kind inner => exact ⟨inner, by rw [← hcall.2, hs]; rfl⟩
  have hrightShaped : right.Shaped := by
    rcases right?_cases h hright with ⟨literal, -, hsolid, rfl⟩ | ⟨operand, hoperand, rfl | ⟨-, rfl⟩⟩
    · exact Tree.shaped_node .token rfl ⟨literal, [], rfl, hsolid⟩ (by simp [Tree.shaped_leaf])
    · exact hshapedOperand _ hoperand
    · exact Tree.shaped_node .token rfl ⟨_, _, rfl, rfl⟩ (by simp [Tree.shaped_leaf, hshapedOperand _ hoperand])
  obtain ⟨inner, hinner⟩ := hfirst
  refine Tree.shaped_node .expression rfl ⟨.callExpr, inner, _, by rw [hinner]; rfl, rfl⟩ ?_
  simp only [List.mem_cons, List.mem_append, List.mem_map, List.not_mem_nil, or_false]
  rintro child ((rfl | rfl | ⟨token, -, rfl⟩) | rfl | rfl) <;> first | assumption | exact Tree.shaped_leaf _

end Rules.Expectation

open Rules Rules.Expectation SwiftTidy.Tree

/-- A tree has the shape that is expected of it, and apart from connectives it consists of tokens of a row, in their
order. -/
structure Descends (tokens : List Token) (tree : Tree) : Prop where
  shaped : tree.Shaped
  root : tree.kind = .sourceFile
  tokens : (original tree.leaves).Sublist (original tokens)

lemma descends_parse (text : String) : Descends (tokensOf text) (parse text) where
  shaped := shaped_parse text
  root := rfl
  tokens := by rw [parse, leaves_parseTokens]

namespace Descends

variable {tokens : List Token} {tree later : Tree}

lemma clear (h : Descends tokens tree) {done : List Path} {pass : Pass} (hcleared : Cleared tree done pass) :
    Descends tokens pass.tree where
  shaped := hcleared.trimming.trims.shaped h.shaped
  root := hcleared.trimming.trims.kind_eq.trans h.root
  tokens := (original_sublist hcleared.relocation.leaves_sublist).trans h.tokens

lemma rewrite (h : Descends tokens tree) {path : Path} (hrewrites : Rewrites path tree later) :
    Descends tokens later := by
  obtain ⟨chain, right, hne, hchain, hright, rfl⟩ := hrewrites
  obtain ⟨call, member, subject, argument, matching, links⟩ := chain?_eq_some_iff.1 hchain
  obtain ⟨part, hpart, rfl⟩ := Option.map_eq_some_iff.1 links.part
  obtain ⟨front, back, hleaves, hnew⟩ := exists_leaves_split hpart
  refine ⟨h.shaped.replaceAt hpart links.isCall.1 (links.shaped_comparison (h.shaped.sub? hpart) hright) rfl rfl, ?_, ?_⟩
  · rw [← h.root]
    cases path with
    | nil => exact absurd rfl hne
    | cons i path => cases tree <;> rfl
  · refine List.Sublist.trans ?_ h.tokens
    rw [hnew, hleaves, original_append, original_append, original_append, original_append]
    exact ((List.Sublist.refl _).append (links.original_comparison (h.shaped.sub? hpart) hright)).append
      (List.Sublist.refl _)

lemma rewrites (h : Descends tokens tree) {done : List Path} (hsteps : RewritesAlong tree done later) :
    Descends tokens later := by
  induction hsteps with
  | refl => exact h
  | tail _ _ hstep ih => exact ih.rewrite hstep

end Descends

/-- The rules that come with the linter, the first of them with or without closures. -/
def Rule.IsBuiltin (rule : Rule) : Prop := rule = expectation ∨ ∃ closures, rule = voidReturn closures

lemma Rule.isBuiltin_of_mem {rule : Rule} (h : rule ∈ Rules.builtin) : rule.IsBuiltin := by
  simp only [Rules.builtin, List.mem_cons, List.not_mem_nil, or_false] at h
  rcases h with rfl | rfl
  · exact Or.inr ⟨true, rfl⟩
  · exact Or.inl rfl

lemma Descends.correct {tokens : List Token} {source : Source} (h : Descends tokens source.tree) {rule : Rule}
    (hrule : rule.IsBuiltin) (regions : List Region) : Descends tokens (rule.correct source regions).source.tree := by
  rcases hrule with rfl | ⟨closures, rfl⟩
  · obtain ⟨pass, hrewritten, -, hcorrect⟩ := rewritten_trail source h.shaped (by rw [h.root]; simp) regions
    rw [hcorrect]
    exact h.rewrites hrewritten.steps
  · obtain ⟨pass, hcleared, -, hcorrect⟩ := cleared_trail closures source regions
    rw [hcorrect]
    exact h.clear hcleared

namespace Linter

lemma descends_foldl {tokens : List Token} (rules : List ActiveRule) (hrules : ∀ active ∈ rules, active.rule.IsBuiltin)
    (state : Source × List Correction) (h : Descends tokens state.1.tree) :
    Descends tokens (rules.foldl correctWith state).1.tree := by
  induction rules generalizing state with
  | nil => exact h
  | cons active rules ih =>
    exact ih (fun other hother => hrules other (by simp [hother])) _
      (h.correct (hrules active (by simp)) _)

/-- Whatever rules correct a text, the outcome consists of tokens of the text, in their order, and of connectives. -/
theorem descends_correct (linter : Linter) (hrules : ∀ active ∈ linter.rules, active.rule.IsBuiltin)
    (text : String) : Descends (tokensOf text) (linter.correct (Source.ofText text)).source.tree :=
  descends_foldl _ (fun active hactive => hrules active (List.mem_filter.1 hactive).1) _ (descends_parse text)

end Linter

end SwiftTidy

import SwiftTidy.Proofs.Assertions
import SwiftTidy.Proofs.BareSites
import SwiftTidy.Proofs.Boundaries
import SwiftTidy.Proofs.LineEnds
import SwiftTidy.Proofs.Seams
import Mathlib.Logic.Function.Iterate

/-!
# Corrections make a text shorter

Each correction saves two bytes at least (`Linter.correct_shortens`). A clause that is taken out has an arrow and a
type. A comparison has blanks, an operator, and perhaps parentheses or a literal of its own, and takes the place of
a verb, the name of a matcher, and two lists of arguments. In a broken file either list may lack its end, but not its
beginning: every call has arguments or a closure, and it keeps them whatever is corrected in it (`Tree.Supplied`).
-/

namespace SwiftTidy

namespace Tree

/-! ## Bytes of children -/

variable {tree part : Tree} {children : List Tree}

lemma width_le_of_mem {child : Tree} (h : child ∈ tree.children) : child.width ≤ tree.width := by
  cases tree with
  | leaf token => simp [Tree.children] at h
  | node kind children =>
    obtain ⟨front, back, rfl⟩ := List.append_of_mem h
    rw [width, widthOf_append, widthOf]
    omega

lemma add_width_le_of_mem {a b : Tree} (ha : a ∈ tree.children) (hb : b ∈ tree.children) (hne : a ≠ b) :
    a.width + b.width ≤ tree.width := by
  cases tree with
  | leaf token => simp [Tree.children] at ha
  | node kind children =>
    obtain ⟨front, back, rfl⟩ := List.append_of_mem ha
    have hb : b ∈ (Tree.node kind (front ++ back)).children := by
      simpa [Tree.children, hne.symm] using hb
    have hrest := width_le_of_mem hb
    rw [width, widthOf_append] at hrest ⊢
    rw [widthOf]
    omega

variable {path : Path} {token : Token}

lemma ne_of_isNode {child : Tree} (h : child.isNode = true) : Tree.leaf token ≠ child := by
  rintro rfl
  simp [isNode] at h

lemma leaf_mem_children (h : token ∈ tree.childTokens) : .leaf token ∈ tree.children := by
  obtain ⟨child, hchild, htoken⟩ := List.mem_filterMap.1 h
  cases child with
  | leaf other =>
    obtain rfl : other = token := by simpa [token?] using htoken
    exact hchild
  | node kind children => simp [token?] at htoken

lemma width_replaceAt (new : Tree) (h : tree.sub? path = some part) :
    (tree.replaceAt path new).width + part.width = tree.width + new.width := by
  obtain ⟨front, back, hleaves, hnew⟩ := exists_leaves_split h
  simp only [width_eq_utf8ByteSize, text, hleaves, hnew, Token.textOf_append, String.utf8ByteSize_append]
  omega

/-- Every token of the tree takes up some of the text. -/
def Solid (tree : Tree) : Prop := ∀ token ∈ tree.leaves, 0 < token.width

lemma Solid.child {child : Tree} (h : tree.Solid) (hchild : child ∈ tree.children) : child.Solid :=
  fun token htoken => h token ((leaves_sublist_of_mem_children hchild).subset htoken)

lemma Solid.width_pos_of_leaf (h : tree.Solid) (htoken : .leaf token ∈ tree.children) : 0 < (leaf token).width :=
  h.child htoken token (by simp)

lemma Solid.sub? (h : tree.Solid) (hpart : tree.sub? path = some part) : part.Solid := by
  obtain ⟨front, back, hleaves, -⟩ := exists_leaves_split hpart
  intro token htoken
  exact h token (by simp [hleaves, htoken])

section

variable (hshaped : tree.Shaped) (hsolid : tree.Solid)

include hshaped hsolid

lemma Shaped.exists_leaf (hnode : tree.isNode = true) (hbegins : tree.kind.begins = (· == .token)) :
    ∃ token, .leaf token ∈ tree.children ∧ 0 < (leaf token).width := by
  obtain ⟨kind, children, rfl⟩ := exists_node_of_isNode hnode
  obtain ⟨token, rest, rfl, -⟩ := hshaped.begins_token hbegins
  exact ⟨token, by simp [Tree.children], hsolid.width_pos_of_leaf (by simp [Tree.children])⟩

lemma Shaped.width_lt {child : Tree} (hbegins : tree.kind.begins = (· == .token)) (hchild : child ∈ tree.children)
    (hnode : child.isNode = true) : child.width < tree.width := by
  have htree : tree.isNode = true := by cases tree <;> simp [Tree.children, isNode] at hchild ⊢
  obtain ⟨token, htoken, hpos⟩ := hshaped.exists_leaf hsolid htree hbegins
  have := add_width_le_of_mem htoken hchild (ne_of_isNode hnode)
  omega

lemma Shaped.width_pos (hnode : tree.isNode = true) (hbegins : tree.kind.begins = (· == .token)) : 0 < tree.width := by
  obtain ⟨token, htoken, hpos⟩ := hshaped.exists_leaf hsolid hnode hbegins
  exact hpos.trans_le (width_le_of_mem htoken)

end

/-! ## What calls are supplied with -/

/-- Arguments or a closure. -/
def supplies (tree : Tree) : Bool := tree.isNode && (tree.kind == .argumentList || tree.kind == .closureExpr)

/-- All calls in a tree have arguments or a closure. -/
def Supplied (tree : Tree) : Prop :=
  ∀ p children, tree.sub? p = some (.node .callExpr children) → ∃ child ∈ children, child.supplies = true

lemma supplied_leaf (token : Token) : (Tree.leaf token).Supplied := by
  intro p children h
  cases p <;> simp [sub?] at h

lemma supplied_node {kind : Kind} (hkind : kind = .callExpr → ∃ child ∈ children, child.supplies = true)
    (hchildren : ∀ child ∈ children, child.Supplied) : (Tree.node kind children).Supplied := by
  intro p row h
  obtain heq | ⟨child, hchild, q, hsub⟩ := sub?_node_cases h
  · obtain ⟨rfl, rfl⟩ := Tree.node.inj heq
    exact hkind rfl
  · exact hchildren child hchild q row hsub

namespace Supplied

lemma sub? (h : tree.Supplied) {p : Path} (hpart : tree.sub? p = some part) : part.Supplied :=
  fun q children hq => h (p ++ q) children ((sub?_append_some hpart q).trans hq)

lemma child {child : Tree} (h : tree.Supplied) (hchild : child ∈ tree.children) : child.Supplied := by
  obtain ⟨i, hi⟩ := exists_sub?_of_mem tree hchild
  exact h.sub? hi

/-- What a call is supplied with is not exchanged, only calls are. -/
lemma replaceAt {new : Tree} {path : Path} (h : tree.Supplied) (hpart : tree.sub? path = some part)
    (hkind : part.kind = .callExpr) (hnew : new.Supplied) : (tree.replaceAt path new).Supplied := by
  induction path, tree, hpart using sub?_induction with
  | here => exact hnew
  | inside kind before child after path hinner ih =>
    rw [replaceAt_node_length]
    have hchildren : ∀ other ∈ before ++ child :: after, other.Supplied := fun other hother => h.child hother
    refine supplied_node (fun hcall => ?_) fun other hother => ?_
    · subst hcall
      obtain ⟨supply, hmem, hsupplies⟩ := h [] _ rfl
      have hcases : supply = child ∨ supply ∈ before ++ after := by
        simpa [or_left_comm] using hmem
      rcases hcases with rfl | hmem
      · refine ⟨supply.replaceAt path new, by simp, ?_⟩
        cases path with
        | nil =>
          obtain rfl : supply = part := by simpa using hinner
          simp [supplies, hkind] at hsupplies
        | cons j path =>
          cases supply with
          | leaf token => simp [supplies, isNode] at hsupplies
          | node kind row => exact hsupplies
      · refine ⟨supply, ?_, hsupplies⟩
        rcases List.mem_append.1 hmem with hmem | hmem <;> simp [hmem]
    · rcases List.mem_append.1 hother with hother | hother
      · exact hchildren other (by simp [hother])
      rcases List.mem_cons.1 hother with rfl | hother
      · exact ih (hchildren child (by simp))
      · exact hchildren other (by simp [hother])

end Supplied

lemma TrimsOf.exists_of_not_isSpare {owner : Kind} {row laters : List Tree} {child : Tree}
    (h : TrimsOf owner row laters) (hmem : child ∈ row) (hkept : child.isSpare owner = false) :
    ∃ later ∈ laters, child.Trims later := by
  induction row generalizing laters with
  | nil => simp at hmem
  | cons first rest ih =>
    rw [TrimsOf] at h
    rcases h with ⟨later, more, rfl, hfirst, hrest⟩ | ⟨hspare, hrest⟩
    · rcases List.mem_cons.1 hmem with rfl | hmem
      · exact ⟨later, by simp, hfirst⟩
      · obtain ⟨other, hother, htrims⟩ := ih hrest hmem
        exact ⟨other, by simp [hother], htrims⟩
    · rcases List.mem_cons.1 hmem with rfl | hmem
      · simp [hspare] at hkept
      · exact ih hrest hmem

lemma Trims.supplies_eq {later : Tree} (h : tree.Trims later) : later.supplies = tree.supplies := by
  cases tree with
  | leaf token => rw [trims_leaf.1 h]
  | node kind children =>
    obtain ⟨laters, rfl, -⟩ := trims_node.1 h
    rfl

lemma isSpare_eq_false_of_supplies {child : Tree} (h : child.supplies = true) (owner : Kind) :
    child.isSpare owner = false := by
  cases child with
  | leaf token => simp [supplies, isNode] at h
  | node kind children =>
    have hkind : kind = .argumentList ∨ kind = .closureExpr := by simpa [supplies, isNode, Tree.kind] using h
    rcases hkind with rfl | rfl <;> rfl

/-- Arguments and closures are nothing to be taken out. -/
lemma Trims.supplied {tree later : Tree} (h : tree.Trims later) (hsupplied : tree.Supplied) : later.Supplied := by
  cases tree with
  | leaf token =>
    rw [trims_leaf.1 h]
    exact hsupplied
  | node kind children =>
    obtain ⟨laters, rfl, hchildren⟩ := trims_node.1 h
    refine supplied_node (fun hcall => ?_) fun later hlater => ?_
    · subst hcall
      obtain ⟨supply, hmem, hsupplies⟩ := hsupplied [] children rfl
      obtain ⟨later, hlater, htrims⟩ := hchildren.exists_of_not_isSpare hmem (isSpare_eq_false_of_supplies hsupplies _)
      exact ⟨later, hlater, by rw [htrims.supplies_eq, hsupplies]⟩
    · obtain ⟨child, hchild, htrims⟩ := hchildren.exists_of_mem hlater
      have hsize := sizeOf_lt_of_mem kind hchild
      exact htrims.supplied (hsupplied.child hchild)
termination_by sizeOf tree

open Grammar in
lemma supplied_parse (text : String) : (parse text).Supplied := by
  intro p children h
  obtain ⟨q, hq, -⟩ := exists_sub?_bare h
  obtain ⟨callee, -, hform⟩ : CallForm .callExpr (bareOf children) := formed_parseTokens (tokensOf text) q _ _ hq
  have hsupply : ∃ (j : Nat) (kind : Kind) (row : List Tree), (bareOf children)[j]? = some (Tree.node kind row) ∧
      (kind = .argumentList ∨ kind = .closureExpr) := by
    rcases hform with ⟨list, hrow⟩ | ⟨list, body, hrow⟩ | ⟨body, hrow⟩
    · exact ⟨1, .argumentList, list, by simp [hrow], Or.inl rfl⟩
    · exact ⟨1, .argumentList, list, by simp [hrow], Or.inl rfl⟩
    · exact ⟨1, .closureExpr, body, by simp [hrow], Or.inr rfl⟩
  obtain ⟨j, kind, row, hj, hkind⟩ := hsupply
  obtain ⟨i, row', hi, -⟩ := exists_getElem?_of_bareOf hj
  exact ⟨_, List.mem_of_getElem? hi, by simpa [supplies, isNode, Tree.kind] using hkind⟩

end Tree

open SwiftTidy.Tree

/-! ## What a chain takes up -/

namespace Part

variable {part child : Part}

lemma exists_leaf_of_name? {name : String} (h : part.name? = some name) :
    ∃ token, .leaf token ∈ part.tree.children ∧ (leaf token).width = name.utf8ByteSize := by
  obtain ⟨token, htoken, rfl⟩ := Option.map_eq_some_iff.1 h
  exact ⟨token, leaf_mem_children (List.mem_of_find?_eq_some htoken), rfl⟩

lemma isNode_of_mem_nodes (h : child ∈ part.nodes) : child.tree.isNode = true := (List.mem_filter.1 h).2

lemma isNode_of_expression? (h : part.expression? = some child) : child.tree.isNode = true :=
  isNode_of_mem_nodes (List.mem_filter.1 (List.mem_of_head? h)).1

end Part

namespace Rules.Expectation

variable {tree : Tree} {path : Path} {chain : Chain} {call member subject argument matching : Part}

/-- The bytes of the operand. -/
def Chain.operandWidth (chain : Chain) : Nat := (chain.argument?.map width).getD 0

/-- The bytes that the right side of a comparison has apart from the operand, at most. -/
def Matcher.extra (matcher : Matcher) : Nat := (matcher.literal?.map Token.width).getD 2

lemma begins_argumentList {list : Tree} (h : list.kind = .argumentList) : list.kind.begins = (· == .token) := by
  rw [h]
  rfl

variable {part : Part} {right : Tree}

lemma width_lt_of_mem_arguments {child : Part} (hshaped : part.tree.Shaped) (hsolid : part.tree.Solid)
    (h : child ∈ part.arguments) : ∃ list : Tree, list ∈ part.tree.children ∧ list.kind = .argumentList ∧
      child.tree.width < list.width := by
  have hnode : child.tree.isNode = true := by
    rw [Part.arguments] at h
    split at h
    · exact Part.isNode_of_mem_nodes (List.mem_filter.1 h).1
    · simp at h
  obtain ⟨list, hlist, hkind, hchild⟩ := Part.exists_list_of_mem_arguments h
  have hbegins := begins_argumentList hkind
  exact ⟨list.tree, hlist, hkind, (hshaped.child hlist).width_lt (hsolid.child hlist) hbegins hchild hnode⟩

/-- A call of a name has a list of arguments, since nothing else follows the name. -/
lemma exists_argumentList_of_calledName? (hcall : IsCall part) (hshaped : part.tree.Shaped)
    (hsupplied : part.tree.Supplied) (hclosure : part.trailingClosure? = none) {name : String}
    (hname : part.calledName? = some name) :
    ∃ list : Tree, list ∈ part.tree.children ∧ list.isNode = true ∧ list.kind = .argumentList := by
  obtain ⟨path, tree⟩ := part
  obtain ⟨hnode, hkind⟩ := hcall
  obtain ⟨children, rfl⟩ := exists_node_of_kind hnode hkind
  obtain ⟨supply, hmem, hsupplies⟩ := hsupplied [] children rfl
  rw [supplies, Bool.and_eq_true, Bool.or_eq_true, beq_iff_eq, beq_iff_eq] at hsupplies
  obtain ⟨hsupplyNode, hlist | hbody⟩ := hsupplies
  · exact ⟨supply, hmem, hsupplyNode, hlist⟩
  · -- a closure is either what is called or follows it
    exfalso
    obtain ⟨kind, inner, rest, rfl, hexpression⟩ := hshaped.begins_expression rfl
    rcases List.mem_cons.1 hmem with rfl | hmem
    · obtain rfl : kind = .closureExpr := hbody
      simp [Part.calledName?, Part.expression?, Part.expressions, Part.nodes, Part.children, Tree.children,
        List.mapIdx_cons, isNode, Part.kind, Tree.kind, hexpression] at hname
    · have hnodes := Part.map_tree_nodes ⟨path, .node .callExpr (.node kind inner :: rest)⟩
      have hsupply : supply ∈ (childNodes (.node .callExpr (.node kind inner :: rest))).drop 1 := by
        rw [childNodes, Tree.children, List.filter_cons_of_pos (by rfl)]
        exact List.mem_filter.2 ⟨hmem, hsupplyNode⟩
      rw [← hnodes, ← List.map_drop] at hsupply
      obtain ⟨body, hbodyMem, rfl⟩ := List.mem_map.1 hsupply
      exact List.find?_eq_none.1 hclosure body hbodyMem (by simpa [Part.kind] using hbody)

variable (h : Links tree path chain call member subject argument matching)

include h

lemma Links.operandWidth_eq : chain.operandWidth = 0 ∨ ∃ first value, first ∈ matching.arguments ∧
    first.expression? = some value ∧ chain.operandWidth = value.tree.width := by
  cases hoperand : chain.argument? with
  | none => exact Or.inl (by simp [Chain.operandWidth, hoperand])
  | some operand =>
    obtain ⟨first, value, hfirst, hvalue, rfl⟩ := h.exists_operand hoperand
    exact Or.inr ⟨first, value, hfirst, hvalue, by simp [Chain.operandWidth, hoperand]⟩

/-- The call of a matcher consists of its name and a list of arguments. -/
lemma Links.width_matching (hshaped : matching.tree.Shaped) (hsolid : matching.tree.Solid)
    (hsupplied : matching.tree.Supplied) :
    chain.matcher.name.utf8ByteSize + chain.operandWidth + 1 ≤ matching.tree.width := by
  obtain ⟨name, hname, hmatcher⟩ := h.matcher
  obtain rfl : chain.matcher.name = name := by simpa using List.find?_some hmatcher
  obtain ⟨callee, hcallee, hident⟩ := Option.bind_eq_some_iff.1 hname
  rw [Option.ite_none_right_eq_some, beq_iff_eq] at hident
  obtain ⟨token, htoken, hsize⟩ := Part.exists_leaf_of_name? hident.2
  have hword := width_le_of_mem htoken
  -- the list that the operand is in, or else any list there is
  obtain ⟨list, hlist, hkind, hwidth⟩ : ∃ list : Tree, list ∈ matching.tree.children ∧ list.kind = .argumentList ∧
      chain.operandWidth < list.width := by
    rcases h.operandWidth_eq with hnone | ⟨first, value, hfirst, hvalue, hoperand⟩
    · obtain ⟨list, hlist, hnode, hkind⟩ :=
        exists_argumentList_of_calledName? h.matching_isCall hshaped hsupplied h.matching_noClosure hname
      refine ⟨list, hlist, hkind, ?_⟩
      rw [hnone]
      exact (hshaped.child hlist).width_pos (hsolid.child hlist) hnode (begins_argumentList hkind)
    · obtain ⟨list, hlist, hkind, hwidth⟩ := width_lt_of_mem_arguments hshaped hsolid hfirst
      have := width_le_of_mem (Part.tree_mem_of_expression? hvalue)
      exact ⟨list, hlist, hkind, by omega⟩
  have hne : callee.tree ≠ list := by
    rintro rfl
    have hident : callee.tree.kind = .identExpr := hident.1
    simp [hident] at hkind
  have := add_width_le_of_mem (Part.tree_mem_of_expression? hcallee) hlist hne
  omega

/-- A chain consists of a call of `expect`, a verb, and a list with the call of a matcher. -/
lemma Links.width_call (hshaped : call.tree.Shaped) (hsolid : call.tree.Solid) (hsupplied : call.tree.Supplied) :
    ∃ verb negated, (verb, negated) ∈ verbs ∧ chain.matcher.operator? negated = some chain.operator ∧
      chain.subject.width + verb.utf8ByteSize + chain.matcher.name.utf8ByteSize + chain.operandWidth + 2 ≤
        call.tree.width := by
  obtain ⟨verb, negated, hverb, hnegated, hoperator⟩ := h.negated
  refine ⟨verb, negated, mem_verbs_iff.2 hnegated, hoperator, ?_⟩
  obtain ⟨token, htoken, hsize⟩ := Part.exists_leaf_of_name? hverb
  have hmember := add_width_le_of_mem htoken (Part.tree_mem_of_expression? h.subject_eq)
    (ne_of_isNode (Part.isNode_of_expression? h.subject_eq))
  have hargument : argument ∈ call.arguments := by simp [h.arguments_eq]
  obtain ⟨list, hlist, hkind, hwidth⟩ := width_lt_of_mem_arguments hshaped hsolid hargument
  have hne : member.tree ≠ list := by
    rintro rfl
    have hmember : member.tree.kind = .memberExpr := h.member_kind
    simp [hmember] at hkind
  have hcall := add_width_le_of_mem (Part.tree_mem_of_expression? h.member_eq) hlist hne
  have hinner := width_le_of_mem (Part.tree_mem_of_expression? h.matching_eq)
  have hmatching := h.width_matching (h.hand_down Shaped.child hshaped).2.1 (h.hand_down Solid.child hsolid).2.1
    (h.hand_down Supplied.child hsupplied).2.1
  rw [h.subject_tree]
  omega

omit h in
/-- For every matcher and verb there is something left to be saved. -/
lemma Matcher.size_operator_le : ∀ matcher ∈ Matcher.all, ∀ verb ∈ verbs, ∀ operator ∈ matcher.operator? verb.2,
    operator.utf8ByteSize + matcher.extra + 2 ≤ verb.1.utf8ByteSize + matcher.name.utf8ByteSize := by
  decide +kernel

omit h in
lemma width_comparison (chain : Chain) (right : Tree) :
    (chain.comparison right).width = chain.subject.width + chain.operator.utf8ByteSize + right.width + 2 := by
  have hspace : (Token.textOf [⟨.whitespace, " "⟩]).utf8ByteSize = 1 := by decide +kernel
  have hrow := leaves_comparison chain right
  rw [← List.singleton_append, ← List.singleton_append (x := Token.mk .whitespace " ") (l := right.leaves)] at hrow
  simp only [width_eq_utf8ByteSize, text, hrow, Token.textOf_append, String.utf8ByteSize_append, textOf_tokensOf,
    hspace]
  omega

omit h in
lemma width_right? (hright : chain.right? = some right) : right.width ≤ chain.operandWidth + chain.matcher.extra := by
  rw [Chain.right?] at hright
  split at hright
  next literal hliteral =>
    obtain rfl : .node .literalExpr [.leaf literal] = right := by simpa using hright
    simp [Matcher.extra, hliteral, width, widthOf]
  next operand hliteral hoperand =>
    have hextra : chain.matcher.extra = 2 := by simp [Matcher.extra, hliteral]
    have hwidth : chain.operandWidth = operand.width := by simp [Chain.operandWidth, hoperand]
    rw [hextra, hwidth]
    split at hright
    · obtain rfl := Option.some.inj hright
      have hopen : Token.width ⟨.lparen, "("⟩ = 1 := by decide +kernel
      have hclose : Token.width ⟨.rparen, ")"⟩ = 1 := by decide +kernel
      simp only [width, widthOf, hopen, hclose]
      omega
    · obtain rfl := Option.some.inj hright
      omega
  next => simp at hright

lemma Links.width_comparison_le (hshaped : call.tree.Shaped) (hsolid : call.tree.Solid) (hsupplied : call.tree.Supplied)
    (hright : chain.right? = some right) : (chain.comparison right).width + 2 ≤ call.tree.width := by
  obtain ⟨verb, negated, hverb, hoperator, hcall⟩ := h.width_call hshaped hsolid hsupplied
  have hsaved := Matcher.size_operator_le _ h.matcher_mem _ hverb _ hoperator
  have hwidth := width_right? hright
  rw [width_comparison]
  simp only at hsaved
  omega

/-- Calls in a comparison have what they had in the chain. -/
lemma Links.supplied_comparison (hsupplied : call.tree.Supplied) (hright : chain.right? = some right) :
    (chain.comparison right).Supplied := by
  obtain ⟨hsubject, -, hoperand⟩ := h.hand_down Supplied.child hsupplied
  have hrightSupplied : right.Supplied := by
    rcases right?_cases h hright with ⟨literal, -, -, rfl⟩ | ⟨operand, hargument, rfl | ⟨-, rfl⟩⟩
    · exact supplied_node (by simp) (by simp [supplied_leaf])
    · exact hoperand _ hargument
    · exact supplied_node (by simp) (by simp [supplied_leaf, hoperand _ hargument])
  refine supplied_node (by simp) ?_
  simp only [List.mem_cons, List.mem_append, List.mem_map, List.not_mem_nil, or_false]
  rintro child ((rfl | rfl | ⟨token, -, rfl⟩) | rfl | rfl) <;> first | assumption | exact supplied_leaf _

end Rules.Expectation

open Rules Rules.Expectation

/-! ## What a clause takes up -/

lemma kind_of_ofKind?_tuple {kind : Kind} (h : TypeForm.ofKind? kind = some .tuple) : kind = .tupleType := by
  revert h
  cases kind <;> decide

/-- A return clause of the empty type consists of an arrow and a type. -/
lemma two_le_width_of_isVoidClause {part : Tree} (hshaped : part.Shaped) (hsolid : part.Solid)
    (h : isVoidClause part = true) : 2 ≤ part.width := by
  obtain ⟨hnode, hkind, hvoid⟩ := (isVoidClause_iff []).1 h
  obtain ⟨type, htype, hvoid⟩ := (Option.any_eq_true _ _).1 hvoid
  have hmem : type ∈ Part.nodes ⟨[], part⟩ := (List.mem_filter.1 (List.mem_of_head? htype)).1
  have hchild : type.tree ∈ part.children := Part.tree_mem_of_mem_children (Part.mem_children_of_mem_nodes hmem)
  have htypeNode := Part.isNode_of_mem_nodes hmem
  have hpos : 0 < type.tree.width := by
    rw [Part.isVoid] at hvoid
    split at hvoid
    next =>
      simp only [Bool.and_eq_true, beq_iff_eq] at hvoid
      obtain ⟨token, htoken, hname⟩ := Option.map_eq_some_iff.1 hvoid.1
      have hleaf := leaf_mem_children (List.mem_of_find?_eq_some htoken)
      exact ((hsolid.child hchild).width_pos_of_leaf hleaf).trans_le (width_le_of_mem hleaf)
    next hform =>
      have hkind : type.tree.kind = .tupleType := by
        rw [Part.typeForm?, if_pos htypeNode] at hform
        exact kind_of_ofKind?_tuple hform
      exact (hshaped.child hchild).width_pos (hsolid.child hchild) htypeNode (by rw [hkind]; rfl)
    next => simp at hvoid
  have hlt := hshaped.width_lt hsolid (by rw [hkind]; rfl) hchild htypeNode
  omega

/-! ## One step of a pass -/

lemma size_textOf_le {row more : List Token} (h : row.Sublist more) :
    (Token.textOf row).utf8ByteSize ≤ (Token.textOf more).utf8ByteSize := by
  induction h with
  | slnil => exact Nat.le_refl _
  | cons token _ ih =>
    rw [← List.singleton_append, Token.textOf_append, String.utf8ByteSize_append]
    omega
  | @cons_cons row more token _ ih =>
    rw [← List.singleton_append, ← List.singleton_append (l := more), Token.textOf_append, Token.textOf_append,
      String.utf8ByteSize_append, String.utf8ByteSize_append]
    omega

/-- Taking out a part takes out its bytes at least. -/
lemma Edit.Clears.width_add_le {tree part : Tree} {path : Path} {edit : Edit} (h : Edit.Clears tree path edit)
    (hpart : tree.sub? path = some part) : edit.tree.width + part.width ≤ tree.width := by
  obtain ⟨front, back, htokens, -⟩ := exists_tokens_split hpart
  have hgone : (part.placedTokens.map (Placed.under path)).filter
      (fun placed => (edit.moved placed.path).isSome) = [] := by
    rw [List.filter_eq_nil_iff]
    intro placed hplaced
    obtain ⟨inner, -, rfl⟩ := List.mem_map.1 hplaced
    have hinside : path <+: (Placed.under path inner).path := by simp
    rw [h.inside _ hinside]
    simp
  have hlater : edit.tree.leaves.Sublist (front.map Placed.token ++ back.map Placed.token) := by
    rw [h.relocation.leaves_eq, htokens, List.filter_append, List.filter_append, hgone, List.append_nil,
      List.map_append]
    exact (List.filter_sublist.map _).append (List.filter_sublist.map _)
  have hleaves : tree.leaves = front.map Placed.token ++ part.leaves ++ back.map Placed.token := by
    rw [← map_token_placedTokens, htokens, ← map_token_placedTokens part]
    simp [Function.comp_def]
  have hsize := size_textOf_le hlater
  simp only [width_eq_utf8ByteSize, text, hleaves, Token.textOf_append, String.utf8ByteSize_append] at hsize ⊢
  omega

/-- A tree that a text has been corrected to so far: it descends from the text, and its calls have arguments or
closures as they had. -/
structure Measured (text : String) (tree : Tree) : Prop where
  descends : Descends (tokensOf text) tree
  supplied : tree.Supplied

namespace Measured

variable {text : String} {tree later : Tree}

lemma solid (h : Measured text tree) : tree.Solid := fun token htoken => (h.descends.sound token htoken).width_pos

lemma rewrite (h : Measured text tree) {path : Path} (hrewrites : Rewrites path tree later) :
    Measured text later ∧ later.width + 2 ≤ tree.width := by
  refine ⟨⟨h.descends.rewrite hrewrites, ?_⟩, ?_⟩
  all_goals
    obtain ⟨chain, right, hne, hchain, hright, rfl⟩ := hrewrites
    obtain ⟨call, member, subject, argument, matching, links⟩ := chain?_eq_some_iff.1 hchain
    obtain ⟨part, hpart, rfl⟩ := Option.map_eq_some_iff.1 links.part
  · exact h.supplied.replaceAt hpart links.isCall.2 (links.supplied_comparison (h.supplied.sub? hpart) hright)
  · have hwidth := width_replaceAt (chain.comparison right) hpart
    have hle := links.width_comparison_le (h.descends.shaped.sub? hpart) (h.solid.sub? hpart)
      (h.supplied.sub? hpart) hright
    simp only at hle
    omega

lemma rewrites (h : Measured text tree) {done : List Path} (hsteps : RewritesAlong tree done later) :
    Measured text later ∧ later.width + 2 * done.length ≤ tree.width := by
  induction hsteps with
  | refl => exact ⟨h, by simp⟩
  | tail _ _ hstep ih =>
    obtain ⟨hlater, hle⟩ := ih
    obtain ⟨hlast, hstep⟩ := hlater.rewrite hstep
    exact ⟨hlast, by rw [List.length_cons]; omega⟩

/-- Clauses that are still there when their turn comes have lost some blanks, but neither arrow nor type. -/
lemma clears (h : Measured text tree) {done : List Path} {moved : Path → Option Path}
    (hsteps : ClearsAlong tree done later moved)
    (hdone : ∀ p ∈ done, tree.SpareAt p ∧ ∃ part, tree.sub? p = some part ∧ isVoidClause part = true) :
    tree.Trimming later moved ∧ later.Solid ∧ later.width + 2 * done.length ≤ tree.width := by
  induction hsteps with
  | refl => exact ⟨Trimming.refl tree, h.solid, by simp⟩
  | @tail done path p later moved edit _ hp hedit ih =>
    obtain ⟨htrimming, hsolid, hle⟩ := ih fun q hq => hdone q (by simp [hq])
    obtain ⟨hspare, part, hpart, hvoid⟩ := hdone path (by simp)
    obtain ⟨part', hpart', htrims, -⟩ := htrimming.part hp hpart
    have hshaped := htrims.shaped (h.descends.shaped.sub? hpart)
    have htwo := two_le_width_of_isVoidClause hshaped (hsolid.sub? hpart') (by rw [isVoidClause_eq htrims.echo, hvoid])
    have hwidth := hedit.width_add_le hpart'
    refine ⟨htrimming.trans (hedit.trimming (htrimming.spareAt hp hspare)), ?_, by rw [List.length_cons]; omega⟩
    exact fun token htoken => hsolid token (hedit.relocation.leaves_sublist.subset htoken)

/-! ## Passes -/

/-- A pass shortens the tree by two bytes for each correction. -/
theorem correct {source : Source} (h : Measured text source.tree) {rule : Rule} (hrule : rule.IsBuiltin)
    (regions : List Region) :
    Measured text (rule.correct source regions).source.tree ∧
      (rule.correct source regions).source.tree.width + 2 * (rule.correct source regions).corrections.length ≤
        source.tree.width := by
  rcases hrule with rfl | ⟨closures, rfl⟩
  · obtain ⟨pass, hrewritten, hcorrections, hcorrect⟩ :=
      rewritten_trail source h.descends.shaped (by rw [h.descends.root]; simp) regions
    obtain ⟨hlater, hle⟩ := h.rewrites hrewritten.steps
    rw [hcorrect]
    exact ⟨hlater, by simpa [hcorrections, Rule.trail, Source.ofTree] using hle⟩
  · obtain ⟨pass, hcleared, hcorrections, hcorrect⟩ := cleared_trail closures source regions
    have hdone : ∀ p ∈ (voidReturn closures).trail source.tree regions, source.tree.SpareAt p ∧
        ∃ part, source.tree.sub? p = some part ∧ isVoidClause part = true := by
      intro p hp
      obtain ⟨site, hsite, rfl⟩ := Rule.mem_trail.1 hp
      obtain ⟨⟨path, -, hfound⟩, -⟩ := Rule.mem_sites.1 hsite
      obtain ⟨rfl, hspare⟩ := find_voidReturn hfound
      obtain ⟨part, hpart, hvoid, -⟩ := (hasSite_voidReturn h.descends.shaped).1 (Rule.hasSite_iff.2 ⟨site, hfound⟩)
      exact ⟨hspare, part, hpart, hvoid⟩
    obtain ⟨-, -, hle⟩ := h.clears hcleared.steps hdone
    rw [hcorrect]
    exact ⟨⟨h.descends.clear hcleared, hcleared.trimming.trims.supplied h.supplied⟩,
      by simpa [hcorrections, Rule.trail, Source.ofTree] using hle⟩

end Measured

namespace Linter

variable {text : String}

lemma measured_foldl (rules : List ActiveRule) (hrules : ∀ active ∈ rules, active.rule.IsBuiltin)
    (state : Source × List Correction) (h : Measured text state.1.tree) :
    Measured text (rules.foldl correctWith state).1.tree ∧
      (rules.foldl correctWith state).1.tree.width + 2 * (rules.foldl correctWith state).2.length ≤
        state.1.tree.width + 2 * state.2.length := by
  induction rules generalizing state with
  | nil => exact ⟨h, Nat.le_refl _⟩
  | cons active rules ih =>
    obtain ⟨hmeasured, hle⟩ := h.correct (hrules active (by simp)) ((Regions.resolve state.1).forRule active.rule.id)
    obtain ⟨hlast, hrest⟩ :=
      ih (fun other hother => hrules other (by simp [hother])) (correctWith state active) hmeasured
    refine ⟨hlast, hrest.trans ?_⟩
    simp only [correctWith, List.length_append]
    omega

lemma measured_parse (text : String) : Measured text (parse text) := ⟨descends_parse text, supplied_parse text⟩

lemma measured_correct (linter : Linter) (hrules : ∀ active ∈ linter.rules, active.rule.IsBuiltin) {source : Source}
    (h : Measured text source.tree) :
    Measured text (linter.correct source).source.tree ∧
      (linter.correct source).source.tree.width + 2 * (linter.correct source).corrections.length ≤
        source.tree.width := by
  have hrun := measured_foldl (linter.rules.filter fun active => active.rule.isCorrectable)
    (fun active hactive => hrules active (List.mem_filter.1 hactive).1) (source, []) h
  simpa [correct] using hrun

/-- The text that a linter makes of a text. -/
def correctText (linter : Linter) (text : String) : String := (linter.correct (Source.ofText text)).source.text

lemma exists_iterate_eq_zero {α : Type} (next : α → α) (size cost : α → Nat) (valid : α → Prop)
    (h : ∀ a, valid a → valid (next a) ∧ size (next a) + 2 * cost a ≤ size a) (a : α) (ha : valid a) :
    ∃ n ≤ size a / 2, cost (next^[n] a) = 0 := by
  induction hsize : size a using Nat.strong_induction_on generalizing a with
  | _ bytes ih =>
    subst hsize
    by_cases hcost : cost a = 0
    · exact ⟨0, by omega, hcost⟩
    · obtain ⟨hvalid, hle⟩ := h a ha
      obtain ⟨n, hn, hzero⟩ := ih (size (next a)) (by omega) (next a) hvalid rfl
      exact ⟨n + 1, by omega, by rwa [Function.iterate_succ_apply]⟩

/-- Whatever a built-in rule corrects in a text, and whatever directives there are, each correction makes the text
shorter by two bytes at least. So a linter that is run over and over again finds nothing more to correct in the end,
whether each run reads the text anew or goes on with the tree of the run before. -/
theorem correct_shortens (text : String) :
    (∀ (rule : Rule) (regions : List Region), rule.IsBuiltin →
      (rule.correct (Source.ofText text) regions).source.text.utf8ByteSize +
        2 * (rule.correct (Source.ofText text) regions).corrections.length ≤ text.utf8ByteSize) ∧
    ∀ linter : Linter, (∀ active ∈ linter.rules, active.rule.IsBuiltin) →
      (∃ n ≤ text.utf8ByteSize / 2, (linter.correct (Source.ofText (linter.correctText^[n] text))).corrections = []) ∧
      ∃ n ≤ text.utf8ByteSize / 2, (linter.correct
        ((fun source => (linter.correct source).source)^[n] (Source.ofText text))).corrections = [] := by
  have hsize : ∀ text, (Source.ofText text).tree.width = text.utf8ByteSize := by
    intro text
    rw [width_eq_utf8ByteSize]
    exact congrArg _ (text_parse text)
  have hread : ∀ text, Measured text (Source.ofText text).tree := measured_parse
  refine ⟨fun rule regions hrule => ?_, fun linter hrules => ⟨?_, ?_⟩⟩
  · obtain ⟨-, hle⟩ := (hread text).correct hrule regions
    rwa [hsize, width_eq_utf8ByteSize] at hle
  · obtain ⟨n, hn, hzero⟩ := exists_iterate_eq_zero linter.correctText String.utf8ByteSize
      (fun text => (linter.correct (Source.ofText text)).corrections.length) (fun _ => True)
      (fun text _ => by
        obtain ⟨-, hle⟩ := measured_correct linter hrules (hread text)
        rw [hsize, width_eq_utf8ByteSize] at hle
        exact ⟨trivial, hle⟩) text trivial
    exact ⟨n, hn, List.length_eq_zero_iff.1 hzero⟩
  · obtain ⟨n, hn, hzero⟩ := exists_iterate_eq_zero (fun source => (linter.correct source).source)
      (fun source => source.tree.width) (fun source => (linter.correct source).corrections.length)
      (fun source => Measured text source.tree) (fun source h => measured_correct linter hrules h) (Source.ofText text)
      (hread text)
    exact ⟨n, by rwa [hsize] at hn, List.length_eq_zero_iff.1 hzero⟩

/-- One correction makes a text with both violations shorter by at least two bytes, and after some rounds of both rules
nothing is left to correct. -/
theorem correct_shortens_builtin :
    let text := "func f() -> Void { expect(x).to(beNil()) }\n"
    let linter : Linter := ⟨Rules.builtin.map ActiveRule.ofRule⟩
    (∀ active ∈ linter.rules, active.rule.IsBuiltin) ∧
      (expectation.correct (Source.ofText text) []).corrections.length = 1 ∧
      (expectation.correct (Source.ofText text) []).source.text.utf8ByteSize + 2 ≤ text.utf8ByteSize ∧
      ∃ n ≤ text.utf8ByteSize / 2, (linter.correct (Source.ofText (linter.correctText^[n] text))).corrections = [] := by
  intro text linter
  have hrules : ∀ active ∈ linter.rules, active.rule.IsBuiltin := by
    intro active hactive
    obtain ⟨rule, hrule, rfl⟩ := List.mem_map.1 hactive
    exact Rule.isBuiltin_of_mem hrule
  have hone : (expectation.correct (Source.ofText text) []).corrections.length = 1 := by decide +kernel
  obtain ⟨hrule, hlinter⟩ := correct_shortens text
  refine ⟨hrules, hone, ?_, (hlinter linter hrules).1⟩
  simpa [hone] using hrule expectation [] (Or.inl rfl)

end Linter

end SwiftTidy

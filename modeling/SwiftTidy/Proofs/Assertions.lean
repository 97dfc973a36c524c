import SwiftTidy.Proofs.CallForms
import SwiftTidy.Proofs.Rereading
import SwiftTidy.Proofs.Surroundings

/-!
# What an expectation looks like

The rule against expectations with an operator finds its sites through the parts of a call, some of which may be missing
and some of which look alike. Here the tree of a site without its trivia is written out as a whole
(`Rules.Expectation.Asserts`): a call of `to`, `toNot` or `notTo` on a call of `expect`, whose only argument is the call
of a matcher. The rule objects exactly to the calls of this form that nothing binds tightly
(`Rules.mem_sitePaths_expectation`).

Only the outer call is known to be written with parentheses. The other two may just as well be subscripts.
-/

namespace SwiftTidy

/-! ## Words -/

namespace Lexer

/-- A token of the kind of a keyword is spelled like it. -/
lemma ofKeyword?_scan {c : Char} {cs : List Char} (h : (scan c cs).kind.isKeyword = true) :
    Kind.ofKeyword? (String.ofList (c :: cs.take (scan c cs).more)) = some (scan c cs).kind := by
  have hname : scan c cs = scanName c cs := by
    rw [scan_eq_form] at h ⊢
    cases hf : form c cs with
    | ordinary =>
      rw [hf, Form.scan, scanOrdinary] at h
      rw [Form.scan, scanOrdinary]
      split_ifs at h ⊢ <;> first | rfl | cases h
    | fixed kind more =>
      exfalso
      rw [hf] at h
      unfold form at hf
      split at hf <;> cases hf <;> cases h
    | pound =>
      rw [hf, Form.scan, scanPound] at h
      split_ifs at h <;> cases h
    | atSign =>
      rw [hf, Form.scan, scanAttribute] at h
      split_ifs at h <;> cases h
    | blockComment =>
      rw [hf, Form.scan, scanBlockComment] at h
      split at h <;> cases h
    | escapedName =>
      rw [hf, Form.scan, scanEscapedName] at h
      split at h <;> cases h
    | lineComment | string | unequal =>
      rw [hf] at h
      cases h
  have htake : cs.take (scanName c cs).more = cs.takeWhile continuesName :=
    (List.prefix_iff_eq_take.1 (List.takeWhile_prefix _)).symm
  rw [hname, htake]
  rw [hname] at h
  cases hword : Kind.ofKeyword? (String.ofList (c :: cs.takeWhile continuesName)) with
  | none =>
    simp only [scanName, plain, hword, Option.getD_none] at h
    cases h
  | some kind => simp only [scanName, plain, hword, Option.getD_some]

lemma ofKeyword?_of_mem_tokens {cs : List Char} {token : Token} (h : token ∈ tokens cs)
    (hkind : token.kind.isKeyword = true) : Kind.ofKeyword? token.text = some token.kind := by
  obtain ⟨c, rest, rfl⟩ := exists_of_mem_tokens h
  exact ofKeyword?_scan hkind

end Lexer

namespace Rules.Expectation

open SwiftTidy.Tree Grammar

/-! ## The form of a site -/

/-- A call without a closure behind it, with what is called, the bracket before the arguments, and these. -/
def Calls (tree callee : Tree) (opening : Kind) (arguments : List Tree) : Prop :=
  ∃ bracket items, tree = .node .callExpr [callee, .node .argumentList (.leaf bracket :: items)] ∧
    bracket.kind = opening ∧ arguments = items.filter isNode

/-- A name as an expression. -/
def named (name : String) : Tree := .node .identExpr [.leaf ⟨.ident, name⟩]

/-- An argument without a label. -/
def positional (value : Tree) : Tree := .node .argument [value]

/-- The verbs that ask for a matcher or rule it out. -/
def verbs : List (String × Bool) := [("to", false), ("toNot", true), ("notTo", true)]

/-- The tree without trivia of an expectation that has an operator. The calls of `expect` and of the matcher are written
with the given brackets. -/
def Asserts (tree : Tree) (outer inner : Kind) : Prop :=
  ∃ subject dot verb negated actual matching, ∃ matcher ∈ Matcher.all, ∃ operands : List Tree,
    Calls tree (.node .memberExpr [subject, .leaf dot, .leaf ⟨.ident, verb⟩]) .lparen [positional matching] ∧
    dot.kind = .dot ∧ (verb, negated) ∈ verbs ∧
    Calls subject (named "expect") outer [actual] ∧
    Calls matching (named matcher.name) inner (operands.map positional) ∧
    operands.length = matcher.arity ∧ (∀ operand ∈ operands, operand.IsExpression) ∧
    (matcher.operator? negated).isSome = true

/-! ## Names -/

/-- The keywords among the tokens of a tree are spelled as such. -/
def Worded (tree : Tree) : Prop :=
  ∀ token ∈ tree.leaves, token.kind.isKeyword = true → Kind.ofKeyword? token.text = some token.kind

lemma Worded.child {kind : Kind} {children : List Tree} (h : Worded (.node kind children)) {child : Tree}
    (hchild : child ∈ children) : Worded child :=
  fun token htoken => h token ((leaves_sublist_of_mem hchild).subset (by simpa using htoken))

lemma Worded.kind_eq {token : Token} (h : Worded (.leaf token)) (hname : token.kind.isName = true)
    (hword : Kind.ofKeyword? token.text = none) : token.kind = .ident := by
  by_contra hne
  have hkeyword : token.kind.isKeyword = true := by simpa [Kind.isName, hne] using hname
  have hspelled := h token (by simp) hkeyword
  simp [hword] at hspelled

/-! ## Parts of a call -/

section Parts

variable {part : Part} {tree callee base : Tree} {items children : List Tree}

lemma listedArguments_eq (path : Path) (bracket : Token)
    (hitems : ∀ item ∈ items, item.isNode = true → item.kind = .argument) :
    (Part.listedArguments ⟨path, .node .argumentList (.leaf bracket :: items)⟩).map Part.tree =
      items.filter isNode := by
  have hlisted : (Part.listedArguments ⟨path, .node .argumentList (.leaf bracket :: items)⟩).map Part.tree =
      (Tree.leaf bracket :: items).filter fun child => child.isNode && child.kind == .argument :=
    Part.map_filter_nodes (fun child => child.kind == .argument) _
  rw [hlisted, List.filter_cons_of_neg (by simp [isNode])]
  refine List.filter_congr fun item hitem => ?_
  cases hnode : item.isNode with
  | false => rfl
  | true => simp [hitems item hitem hnode]

/-- What is found in a call whose tree is known. -/
lemma parts_call (path : Path) (bracket : Token) (hcallee : callee.IsExpression)
    (hitems : ∀ item ∈ items, item.isNode = true → item.kind = .argument) :
    let call : Part := ⟨path, .node .callExpr [callee, .node .argumentList (.leaf bracket :: items)]⟩
    call.expression? = some ⟨path ++ [0], callee⟩ ∧ call.trailingClosure? = none ∧
      call.isSubscript = (bracket.kind == .lbracket) ∧ call.arguments.map Part.tree = items.filter isNode := by
  obtain ⟨kind, children, rfl, hkind⟩ := hcallee.exists_node
  intro call
  have hnodes : call.nodes =
      [⟨path ++ [0], .node kind children⟩, ⟨path ++ [1], .node .argumentList (.leaf bracket :: items)⟩] := by
    simp [call, Part.nodes, Part.children, Tree.children, isNode]
  have hlist : call.argumentList? = some ⟨path ++ [1], .node .argumentList (.leaf bracket :: items)⟩ := by
    have hne : kind ≠ .argumentList := by
      rintro rfl
      cases hkind
    simp [Part.argumentList?, Part.node?, hnodes, Part.kind, hne, Tree.kind]
  refine ⟨?_, ?_, ?_, ?_⟩
  · simp [Part.expression?, Part.expressions, hnodes, Part.kind, Tree.kind, hkind]
  · simp [Part.trailingClosure?, hnodes, Part.kind, Tree.kind]
  · simp [Part.isSubscript, hlist, firstToken?]
  · rw [Part.arguments, hlist]
    exact listedArguments_eq _ _ hitems

variable {arguments : List Tree} {opening : Kind} {path : Path}

/-- A call that no closure follows has arguments. -/
lemma exists_of_callForm (hform : CallForm .callExpr children)
    (hclosure : Part.trailingClosure? ⟨path, .node .callExpr children⟩ = none) :
    ∃ callee list, children = [callee, .node .argumentList list] ∧ callee.IsExpression := by
  obtain ⟨callee, hcallee, hchildren⟩ := hform
  obtain ⟨kind, others, rfl, -⟩ := hcallee.exists_node
  obtain ⟨list, rfl⟩ | ⟨list, body, rfl⟩ | ⟨body, rfl⟩ := hchildren
  · exact ⟨_, list, rfl, hcallee⟩
  · simp [Part.trailingClosure?, Part.nodes, Part.children, Tree.children, isNode, Part.kind, Tree.kind] at hclosure
  · simp [Part.trailingClosure?, Part.nodes, Part.children, Tree.children, isNode, Part.kind, Tree.kind] at hclosure

/-- What is found in a member whose tree is known. -/
lemma parts_member (path : Path) (name : Token) {dot : Token} (hbase : base.IsExpression) (hdot : dot.kind = .dot) :
    let member : Part := ⟨path, .node .memberExpr [base, .leaf dot, .leaf name]⟩
    member.expression? = some ⟨path ++ [0], base⟩ ∧
      member.name? = if name.kind.isName then some name.text else none := by
  obtain ⟨kind, children, rfl, hkind⟩ := hbase.exists_node
  intro member
  constructor
  · simp [member, Part.expression?, Part.expressions, Part.nodes, Part.children, Tree.children, isNode, Part.kind,
      Tree.kind, hkind]
  · have hno : (dot.kind == .ident || dot.kind.isKeyword) = false := by rw [hdot]; rfl
    rw [Part.name?]
    cases hname : name.kind.isName with
    | false =>
      have hname : (name.kind == .ident || name.kind.isKeyword) = false := hname
      simp [member, childTokens, Tree.children, token?, hno, hname]
    | true =>
      have hname : (name.kind == .ident || name.kind.isKeyword) = true := hname
      simp [member, childTokens, Tree.children, token?, hno, hname]

/-- The name that is called is all that an identifier consists of. -/
lemma calledName?_eq_some_iff {call : Part} {text : String} (hcallee : call.expression? = some ⟨path, callee⟩)
    (hform : CallForm callee.kind callee.children) (hnode : callee.isNode = true) :
    call.calledName? = some text ↔
      ∃ kind, (kind = .ident ∨ kind = .initKw) ∧ callee = .node .identExpr [.leaf ⟨kind, text⟩] := by
  cases callee with
  | leaf token => cases hnode
  | node kind children =>
    rw [Part.calledName?, hcallee, Option.bind_some]
    by_cases hkind : kind = .identExpr
    · subst hkind
      obtain ⟨⟨kind, word⟩, rfl, hname⟩ := hform
      have hname : kind = .ident ∨ kind = .initKw := hname
      have hisName : (kind == .ident || kind.isKeyword) = true := by obtain rfl | rfl := hname <;> rfl
      have hword : Part.name? ⟨path, .node .identExpr [.leaf ⟨kind, word⟩]⟩ = some word := by
        simp [Part.name?, childTokens, Tree.children, token?, hisName]
      rw [hword]
      simp only [Part.kind, Tree.kind, beq_self_eq_true, if_true, Option.some.injEq, node.injEq, true_and,
        List.cons.injEq, leaf.injEq, Token.mk.injEq, and_true]
      constructor
      · rintro rfl
        exact ⟨kind, hname, rfl, rfl⟩
      · rintro ⟨-, -, -, rfl⟩
        rfl
    · have hne : (Part.kind ⟨path, .node kind children⟩ == .identExpr) = false := by
        simpa [Part.kind, Tree.kind] using hkind
      simp [hne, hkind]

/-- What is found in an argument whose value is an expression, and which has no label. -/
lemma parts_argument (hform : CallForm .argument children) : let argument : Part := ⟨path, .node .argument children⟩
    argument.label? = none ∧ argument.expression? = some part ↔
      part.path = path ++ [0] ∧ part.tree.IsExpression ∧ children = [part.tree] := by
  intro argument
  obtain ⟨label, values, rfl, rfl | ⟨name, colon, rfl, hname, hcolon⟩, hvalues⟩ := hform
  · obtain rfl | ⟨value, rfl, hnode⟩ := hvalues
    · simp [argument, Part.expression?, Part.expressions, Part.nodes, Part.children, Tree.children]
    · cases value with
      | leaf token => cases hnode
      | node kind children =>
        have hlabel : argument.label? = none := by
          simp [argument, Part.label?, Part.leaf?, Part.children, Tree.children, isNode]
        have hvalue : argument.expression? =
            if kind.isExpression = true then some ⟨path ++ [0], .node kind children⟩ else none := by
          cases hkind : kind.isExpression <;>
            simp [argument, Part.expression?, Part.expressions, Part.nodes, Part.children, Tree.children, isNode,
              Part.kind, Tree.kind, hkind]
        rw [hvalue, and_iff_right hlabel, Option.ite_none_right_eq_some, Option.some.injEq]
        constructor
        · rintro ⟨hkind, rfl⟩
          exact ⟨rfl, ⟨rfl, hkind⟩, rfl⟩
        · rintro ⟨hpath, hexpression, htree⟩
          obtain ⟨partPath, partTree⟩ := part
          obtain rfl : .node kind children = partTree := by simpa using htree
          obtain rfl : partPath = path ++ [0] := hpath
          exact ⟨hexpression.2, rfl⟩
  · have hlabel : argument.label? = some name.text := by
      have hname : (name.kind == .ident || name.kind.isKeyword) = true := hname
      simp [argument, Part.label?, Part.leaf?, Part.children, Tree.children, isNode, Part.kind, Tree.kind, hcolon,
        Part.name?, childTokens, token?, hname]
    simp [hlabel]

/-- A call that no closure follows, seen as a whole. -/
lemma calls_of_isCall (hcall : IsCall part) (hformed : Formed part.tree) (hclosure : part.trailingClosure? = none) :
    ∃ callee opening, Calls part.tree callee opening (part.arguments.map Part.tree) ∧ callee.IsExpression ∧
      (opening = .lparen ∨ opening = .lbracket) ∧ part.expression? = some ⟨part.path ++ [0], callee⟩ ∧
      part.isSubscript = (opening == .lbracket) := by
  obtain ⟨path, tree⟩ := part
  cases tree with
  | leaf token => cases hcall.1
  | node kind children =>
    obtain rfl : kind = .callExpr := hcall.2
    obtain ⟨callee, list, rfl, hcallee⟩ := exists_of_callForm hformed.form hclosure
    obtain ⟨bracket, items, rfl, hbracket, hitems⟩ := (hformed.child (by simp : .node .argumentList list ∈ _)).form
    obtain ⟨hexpression, -, hsubscript, harguments⟩ := parts_call path bracket hcallee hitems
    exact ⟨callee, bracket.kind, ⟨bracket, items, rfl, rfl, harguments⟩, hcallee, hbracket, hexpression, hsubscript⟩

/-- The parts of a call that is seen as a whole. -/
lemma Calls.parts (part : Part) (h : Calls part.tree callee opening arguments) (hformed : Formed part.tree)
    (hcallee : callee.IsExpression) :
    IsCall part ∧ part.expression? = some ⟨part.path ++ [0], callee⟩ ∧ part.trailingClosure? = none ∧
      part.isSubscript = (opening == .lbracket) ∧ part.arguments.map Part.tree = arguments := by
  obtain ⟨path, tree⟩ := part
  obtain ⟨bracket, items, rfl, rfl, rfl⟩ := h
  have hlist : Formed (.node .argumentList (.leaf bracket :: items)) := hformed.child (by simp)
  obtain ⟨first, others, hchildren, -, hitems⟩ := hlist.form
  obtain ⟨rfl, rfl⟩ : bracket = first ∧ items = others := by simpa using hchildren
  obtain ⟨hexpression, hclosure, hsubscript, harguments⟩ := parts_call path bracket hcallee hitems
  exact ⟨⟨rfl, rfl⟩, hexpression, hclosure, hsubscript, harguments⟩

lemma Calls.callee_mem (h : Calls tree callee opening arguments) :
    ∃ children, tree = .node .callExpr children ∧ callee ∈ children := by
  obtain ⟨bracket, items, rfl, -, -⟩ := h
  exact ⟨_, rfl, by simp⟩

/-- The arguments of a call are arguments. -/
lemma Calls.exists_argument (h : Calls tree callee opening arguments) (hformed : Formed tree) {argument : Tree}
    (hargument : argument ∈ arguments) :
    ∃ children, argument = .node .argument children ∧ Formed argument ∧ (Worded tree → Worded argument) := by
  obtain ⟨bracket, items, rfl, rfl, rfl⟩ := h
  have hlist : Formed (.node .argumentList (.leaf bracket :: items)) := hformed.child (by simp)
  obtain ⟨first, others, hchildren, -, hitems⟩ := hlist.form
  obtain ⟨-, rfl⟩ : _ ∧ items = others := by simpa using hchildren
  obtain ⟨hmem, hnode⟩ := List.mem_filter.1 hargument
  cases argument with
  | leaf token => cases hnode
  | node kind children =>
    obtain rfl : kind = .argument := hitems _ hmem hnode
    refine ⟨children, rfl, hlist.child (by simp [hmem]), fun hworded => ?_⟩
    have hlistWorded : Worded (.node .argumentList (.leaf bracket :: items)) := hworded.child (by simp)
    exact hlistWorded.child (by simp [hmem])

end Parts

/-! ## Links and their form -/

section Links

variable {tree callTree callee : Tree} {path : Path} {chain : Chain} {call member subject argument matching : Part}
  {arguments : List Tree} {opening : Kind} {verb name : String}

lemma mem_verbs_iff {negated : Bool} : (verb, negated) ∈ verbs ↔ ruledOut? verb = some negated := by
  simp only [verbs, List.mem_cons, Prod.mk.injEq, List.not_mem_nil, or_false, ruledOut?, beq_iff_eq, Bool.or_eq_true]
  by_cases hto : verb = "to"
  · subst hto
    cases negated <;> simp
  · by_cases hnot : verb = "toNot" ∨ verb = "notTo"
    · rw [if_neg hto, if_pos hnot]
      cases negated <;> simp [hto, hnot]
    · rw [if_neg hto, if_neg hnot]
      rw [not_or] at hnot
      simp [hto, hnot]

lemma eq_named (hcallee : call.expression? = some ⟨path, callee⟩) (hexpression : callee.IsExpression)
    (hformed : Formed callee) (hworded : Worded callee) (hname : call.calledName? = some name)
    (hword : Kind.ofKeyword? name = none) : callee = named name := by
  obtain ⟨kind, children, rfl, -⟩ := hexpression.exists_node
  obtain ⟨kind, hkind, hnode⟩ := (calledName?_eq_some_iff hcallee hformed.form rfl).1 hname
  rw [hnode] at hworded ⊢
  have hident : kind = .ident := by
    have hleaf : Worded (.leaf ⟨kind, name⟩) := hworded.child (by simp)
    refine hleaf.kind_eq ?_ hword
    obtain rfl | rfl := hkind <;> rfl
  rw [hident, named]

/-- A call of a name that is no keyword, seen as a whole. -/
lemma exists_calls_named (hcall : IsCall call) (hformed : Formed call.tree) (hworded : Worded call.tree)
    (hclosure : call.trailingClosure? = none) (hname : call.calledName? = some name)
    (hword : Kind.ofKeyword? name = none) :
    ∃ opening ∈ [Kind.lparen, .lbracket], Calls call.tree (named name) opening (call.arguments.map Part.tree) := by
  obtain ⟨callee, opening, hcalls, hcallee, hopening, hexpression, -⟩ := calls_of_isCall hcall hformed hclosure
  obtain ⟨children, htree, hmem⟩ := hcalls.callee_mem
  have hnamed := eq_named hexpression hcallee ((htree ▸ hformed).child hmem) ((htree ▸ hworded).child hmem) hname hword
  exact ⟨opening, by simpa using hopening, hnamed ▸ hcalls⟩

/-- A member of an expression is this expression, a point and a name. -/
lemma eq_member (hkind : member.kind = .memberExpr) (hexpression : member.tree.IsExpression)
    (hformed : Formed member.tree) (hworded : Worded member.tree) (hsubject : member.expression? = some subject)
    (hname : member.name? = some verb) (hword : Kind.ofKeyword? verb = none) :
    subject.tree.IsExpression ∧ ∃ dot : Token, dot.kind = .dot ∧
      member.tree = .node .memberExpr [subject.tree, .leaf dot, .leaf ⟨.ident, verb⟩] := by
  obtain ⟨path, tree⟩ := member
  obtain ⟨kind, children, rfl, -⟩ := hexpression.exists_node
  obtain rfl : kind = .memberExpr := hkind
  obtain ⟨tokens, rfl⟩ | ⟨base, dot, ⟨kind, word⟩, rfl, hbase, hdot⟩ := hformed.form
  · -- an implied member is no member of an expression
    obtain ⟨hmem, hkind⟩ := List.mem_filter.1 (List.mem_of_head? hsubject)
    obtain ⟨hmem, hnode⟩ := List.mem_filter.1 hmem
    obtain ⟨token, -, hleaf⟩ := List.mem_map.1 (Part.tree_mem_of_mem_children hmem)
    rw [← hleaf] at hnode
    cases hnode
  · obtain ⟨hbaseEq, hnameEq⟩ := parts_member path ⟨kind, word⟩ hbase hdot
    obtain rfl : ⟨path ++ [0], base⟩ = subject := Option.some.inj (hbaseEq.symm.trans hsubject)
    obtain ⟨hisName, hverb⟩ := Option.ite_none_right_eq_some.1 (hnameEq.symm.trans hname)
    obtain rfl : word = verb := Option.some.inj hverb
    have hleaf : Worded (.leaf ⟨kind, word⟩) := hworded.child (by simp)
    have hident := hleaf.kind_eq hisName hword
    exact ⟨hbase, dot, hdot, by rw [← hident]⟩

/-- The operands of a matcher, all without labels. -/
lemma Links.exists_operands (h : Links tree path chain call member subject argument matching)
    (hcalls : Calls matching.tree callee opening (matching.arguments.map Part.tree)) (hformed : Formed matching.tree) :
    ∃ operands : List Tree, matching.arguments.map Part.tree = operands.map positional ∧
      operands.length = chain.matcher.arity ∧ ∀ operand ∈ operands, operand.IsExpression := by
  have hlength := h.matching_arguments
  have hunlabelled := h.matching_unlabelled
  have hoperand := h.operand
  rw [operand?] at hoperand
  cases harguments : matching.arguments with
  | nil =>
    rw [harguments] at hlength
    exact ⟨[], rfl, hlength, by simp⟩
  | cons first rest =>
    -- there is one argument at most
    obtain rfl : rest = [] := by
      have hle : chain.matcher.arity ≤ 1 := by
        unfold Matcher.arity
        split <;> simp
      rw [harguments, List.length_cons] at hlength
      exact List.length_eq_zero_iff.1 (by omega)
    rw [harguments] at hlength hoperand hcalls
    obtain ⟨children, htree, hargument, -⟩ := hcalls.exists_argument hformed (List.mem_singleton.2 rfl)
    cases hvalue : first.expression? with
    | none => simp [hvalue] at hoperand
    | some value =>
      obtain ⟨firstPath, firstTree⟩ := first
      obtain rfl : firstTree = _ := htree
      have hlabel := hunlabelled ⟨firstPath, .node .argument children⟩ (by simp [harguments])
      obtain ⟨-, hexpression, rfl⟩ := (parts_argument hargument.form).1 ⟨hlabel, hvalue⟩
      exact ⟨[value.tree], rfl, by simpa using hlength, by simpa using hexpression⟩

/-- The links of a chain have the form of an expectation. -/
lemma Links.asserts (h : Links tree path chain call member subject argument matching) (hformed : Formed call.tree)
    (hworded : Worded call.tree) :
    ∃ outer ∈ [Kind.lparen, .lbracket], ∃ inner ∈ [Kind.lparen, .lbracket], Asserts call.tree outer inner := by
  obtain ⟨verb, negated, hverb, hnegated, hoperator⟩ := h.negated
  obtain ⟨name, hname, hmatcher⟩ := h.matcher
  obtain ⟨hnameEq, hmem⟩ : chain.matcher.name = name ∧ chain.matcher ∈ Matcher.all := by
    refine ⟨by simpa using List.find?_some hmatcher, List.mem_of_find?_eq_some hmatcher⟩
  have hmatcherWord : ∀ matcher ∈ Matcher.all, Kind.ofKeyword? matcher.name = none := by decide +kernel
  -- the call and the member that it calls
  obtain ⟨callee, opening, hcalls, hcallee, hopening, hexpression, hsubscript⟩ :=
    calls_of_isCall h.isCall hformed h.noClosure
  obtain rfl : opening = .lparen := by
    refine hopening.resolve_right ?_
    rintro rfl
    simp [h.notSubscript] at hsubscript
  obtain rfl : ⟨call.path ++ [0], callee⟩ = member := Option.some.inj (hexpression.symm.trans h.member_eq)
  obtain ⟨children, htree, hmemberMem⟩ := hcalls.callee_mem
  have hmemberFormed : Formed callee := (htree ▸ hformed).child hmemberMem
  have hmemberWorded : Worded callee := (htree ▸ hworded).child hmemberMem
  have hverbWord : Kind.ofKeyword? verb = none := by
    have hall : ∀ pair ∈ verbs, Kind.ofKeyword? pair.1 = none := by decide +kernel
    exact hall _ (mem_verbs_iff.2 hnegated)
  obtain ⟨hsubject, dot, hdot, hmemberTree⟩ :=
    eq_member h.member_kind hcallee hmemberFormed hmemberWorded h.subject_eq hverb hverbWord
  obtain rfl : callee = _ := hmemberTree
  -- the call of `expect`
  have hsubjectFormed : Formed subject.tree := hmemberFormed.child (by simp)
  have hsubjectWorded : Worded subject.tree := hmemberWorded.child (by simp)
  obtain ⟨outer, houter, hsubjectCalls⟩ :=
    exists_calls_named h.subject_isCall hsubjectFormed hsubjectWorded h.subject_noClosure h.subject_name
      (by decide +kernel)
  obtain ⟨actual, hactual⟩ := List.length_eq_one_iff.1 h.subject_arguments
  -- the call of the matcher
  rw [h.arguments_eq] at hcalls
  obtain ⟨children, hargumentTree, hargumentFormed, hargumentWorded⟩ :=
    hcalls.exists_argument hformed (List.mem_singleton.2 rfl)
  obtain ⟨argumentPath, argumentTree⟩ := argument
  obtain rfl : argumentTree = _ := hargumentTree
  obtain ⟨-, -, rfl⟩ := (parts_argument hargumentFormed.form).1 ⟨h.unlabelled, h.matching_eq⟩
  have hmatchingFormed : Formed matching.tree := hargumentFormed.child (by simp)
  have hmatchingWorded : Worded matching.tree := (hargumentWorded hworded).child (by simp)
  obtain ⟨inner, hinner, hmatchingCalls⟩ := exists_calls_named h.matching_isCall hmatchingFormed hmatchingWorded
    h.matching_noClosure hname (hnameEq ▸ hmatcherWord _ hmem)
  obtain ⟨operands, hoperands, hlength, hexpressions⟩ := h.exists_operands hmatchingCalls hmatchingFormed
  refine ⟨outer, houter, inner, hinner, subject.tree, dot, verb, negated, actual.tree, matching.tree, chain.matcher,
    hmem, operands, hcalls, hdot, mem_verbs_iff.2 hnegated, ?_, ?_, hlength, hexpressions, by simp [hoperator]⟩
  · simpa [hactual] using hsubjectCalls
  · rw [hnameEq, ← hoperands]
    exact hmatchingCalls

lemma Calls.isExpression (h : Calls tree callee opening arguments) : tree.IsExpression := by
  obtain ⟨bracket, items, rfl, -, -⟩ := h
  exact ⟨rfl, rfl⟩

lemma Calls.parts_named (call : Part) (h : Calls call.tree (named name) opening arguments) (hformed : Formed call.tree) :
    IsCall call ∧ call.calledName? = some name ∧ call.trailingClosure? = none ∧
      call.arguments.map Part.tree = arguments := by
  obtain ⟨hcall, hexpression, hclosure, -, harguments⟩ := h.parts call hformed ⟨rfl, rfl⟩
  obtain ⟨children, htree, hmem⟩ := h.callee_mem
  have hform : Formed (named name) := (htree ▸ hformed).child hmem
  refine ⟨hcall, ?_, hclosure, harguments⟩
  exact (calledName?_eq_some_iff hexpression hform.form rfl).2 ⟨.ident, .inl rfl, rfl⟩

lemma parts_positional {value : Tree} (hargument : argument.tree = positional value) (hvalue : value.IsExpression) :
    argument.label? = none ∧ argument.expression? = some ⟨argument.path ++ [0], value⟩ := by
  obtain ⟨path, tree⟩ := argument
  obtain rfl : tree = positional value := hargument
  exact (parts_argument ⟨[], [value], rfl, .inl rfl, .inr ⟨value, rfl, hvalue.1⟩⟩).2 ⟨rfl, hvalue, rfl⟩

lemma operand?_eq {operands : List Tree} (harguments : matching.arguments.map Part.tree = operands.map positional)
    (hoperands : ∀ operand ∈ operands, operand.IsExpression) :
    (operand? matching).map (Option.map Part.tree) = some operands.head? := by
  rw [operand?]
  cases operands with
  | nil =>
    have hnil : matching.arguments = [] := List.map_eq_nil_iff.1 harguments
    simp [hnil]
  | cons operand rest =>
    obtain ⟨first, others, hcons, hfirst, -⟩ := List.map_eq_cons_iff.1 harguments
    simp [hcons, (parts_positional hfirst (hoperands operand (by simp))).2]

/-- What has the form of an expectation has its links. -/
lemma Asserts.exists_chain {outer inner : Kind} (h : Asserts callTree outer inner) (hformed : Formed callTree)
    (hpart : tree.sub? path = some callTree) (hloose : (tree.ownerKind? path).any bindsTightly = false) :
    ∃ chain, chain? tree path = some chain := by
  obtain ⟨subjectTree, dot, verb, negated, actual, matchingTree, matcher, hmem, operands, hcalls, hdot, hverb, hsubject,
    hmatching, hlength, hoperands, hoperator⟩ := h
  obtain ⟨operator, hoperator⟩ := Option.isSome_iff_exists.1 hoperator
  let call : Part := ⟨path, callTree⟩
  let member : Part := ⟨path ++ [0], .node .memberExpr [subjectTree, .leaf dot, .leaf ⟨.ident, verb⟩]⟩
  let subject : Part := ⟨member.path ++ [0], subjectTree⟩
  -- the call and the member that it calls
  obtain ⟨hcall, hmember, hclosure, hsubscript, harguments⟩ := hcalls.parts call hformed ⟨rfl, rfl⟩
  obtain ⟨children, htree, hmemberMem⟩ := hcalls.callee_mem
  have hmemberFormed : Formed member.tree := (htree ▸ hformed).child hmemberMem
  obtain ⟨hbase, hname⟩ := parts_member member.path ⟨.ident, verb⟩ hsubject.isExpression hdot
  -- the call of `expect`
  obtain ⟨hsubjectCall, hexpect, hsubjectClosure, hactual⟩ :=
    hsubject.parts_named subject (hmemberFormed.child (List.mem_cons_self ..))
  -- the call of the matcher
  obtain ⟨argument, hargumentEq, hargument⟩ := List.map_eq_singleton_iff.1 harguments
  obtain ⟨hlabel, hvalue⟩ := parts_positional hargument hmatching.isExpression
  have hmatchingFormed : Formed matchingTree := by
    obtain ⟨inside, hinside, hargumentFormed, -⟩ := hcalls.exists_argument hformed (List.mem_singleton.2 rfl)
    exact hargumentFormed.child (by simp)
  obtain ⟨hmatchingCall, hmatcherName, hmatchingClosure, hmatchingArguments⟩ :=
    hmatching.parts_named ⟨argument.path ++ [0], matchingTree⟩ hmatchingFormed
  have hnamed : Matcher.named? matcher.name = some matcher := by
    have hall : ∀ matcher ∈ Matcher.all, Matcher.named? matcher.name = some matcher := by decide +kernel
    exact hall matcher hmem
  have hunlabelled : ∀ part ∈ Part.arguments ⟨argument.path ++ [0], matchingTree⟩, part.label? = none := by
    intro part hpart
    obtain ⟨operand, hoperand, htree⟩ := List.mem_map.1 (hmatchingArguments ▸ List.mem_map_of_mem hpart)
    exact (parts_positional htree.symm (hoperands operand hoperand)).1
  refine ⟨⟨subjectTree, matcher, operator, operands.head?⟩, chain?_eq_some_iff.2
    ⟨call, member, subject, argument, ⟨argument.path ++ [0], matchingTree⟩, ?_⟩⟩
  exact
    { part := by simp [part?, hpart, call]
      isCall := hcall
      notSubscript := hsubscript
      noClosure := hclosure
      loose := hloose
      member_eq := hmember
      member_kind := rfl
      negated := ⟨verb, negated, hname, mem_verbs_iff.1 hverb, hoperator⟩
      subject_eq := hbase
      subject_isCall := hsubjectCall
      subject_name := hexpect
      subject_noClosure := hsubjectClosure
      subject_arguments := by simpa using congrArg List.length hactual
      arguments_eq := hargumentEq
      unlabelled := hlabel
      matching_eq := hvalue
      matching_isCall := hmatchingCall
      matching_noClosure := hmatchingClosure
      matcher := ⟨matcher.name, hmatcherName, hnamed⟩
      matching_arguments := by simpa [hlength] using congrArg List.length hmatchingArguments
      matching_unlabelled := hunlabelled
      subject_tree := rfl
      operand := operand?_eq hmatchingArguments hoperands }

end Links

lemma worded_parse (text : String) : Worded (parse text).bare := by
  obtain ⟨children, htree⟩ : ∃ children, parse text = .node .sourceFile children := ⟨_, rfl⟩
  have htokens : leavesOf children = tokensOf text := by
    rw [← leaves_node .sourceFile, ← htree]
    exact leaves_parseTokens (tokensOf text)
  intro token htoken
  rw [htree, bare_node, leaves_node, leavesOf_bareOf, htokens] at htoken
  exact Lexer.ofKeyword?_of_mem_tokens (List.mem_of_mem_filter htoken)

lemma Worded.sub? {tree part : Tree} (h : Worded tree) {path : Path} (hpath : tree.sub? path = some part) :
    Worded part := by
  induction path generalizing tree with
  | nil =>
    obtain rfl : tree = part := by simpa using hpath
    exact h
  | cons i path ih =>
    cases tree with
    | leaf token => simp [Tree.sub?] at hpath
    | node kind children =>
      rw [sub?_node_cons, Option.bind_eq_some_iff] at hpath
      obtain ⟨child, hchild, hpath⟩ := hpath
      exact ih (h.child (List.mem_of_getElem? hchild)) hpath

end Rules.Expectation

namespace Rules

open Expectation SwiftTidy.Tree Grammar

lemma any_bindsTightly_eq_false_iff {owner? : Option Kind} : owner?.any bindsTightly = false ↔
    ∀ owner ∈ owner?, owner ∉ [Kind.memberExpr, .postfixExpr, .callExpr, .prefixExpr, .binaryExpr] := by
  cases owner? with
  | none => simp
  | some owner => cases owner <;> simp [bindsTightly]

/-- The rule against expectations with an operator objects exactly to the calls that have the form of one, unless
something binds them tightly. -/
theorem mem_sitePaths_expectation (text : String) (path : Path) :
    path ∈ expectation.sitePaths (parse text) [] ↔
      ∃ call, (parse text).sub? path = some call ∧
        (∀ owner ∈ (parse text).ownerKind? path,
          owner ∉ [Kind.memberExpr, .postfixExpr, .callExpr, .prefixExpr, .binaryExpr]) ∧
        ∃ outer ∈ [Kind.lparen, .lbracket], ∃ inner ∈ [Kind.lparen, .lbracket], Asserts call.bare outer inner := by
  have hrule : expectation.IsBuiltin := .inl rfl
  have hshaped := shaped_parse text
  have hshaped' : (parse text).bare.Shaped := (trims_bare _).shaped hshaped
  rw [Rule.mem_sitePaths_nil hrule hshaped, ← any_bindsTightly_eq_false_iff]
  -- the place of a node without trivia, where it is a site exactly if it was one
  have hplace : ∀ kind children, (parse text).sub? path = some (.node kind children) →
      ∃ q, (parse text).bare.sub? q = some (Tree.node kind children).bare ∧
        (parse text).bare.ownerKind? q = (parse text).ownerKind? path ∧
        (expectation.HasSite (parse text).bare q ↔ expectation.HasSite (parse text) path) := by
    intro kind children hpart
    obtain ⟨q, hlater, -, howner⟩ := exists_sub?_bare hpart
    rw [← bare_node] at hlater
    exact ⟨q, hlater, howner, hasSite_of_echo hrule hshaped hshaped' hpart hlater (trims_bare _).echo howner⟩
  constructor
  · intro hsite
    obtain ⟨kind, children, hpart, -⟩ := kind_of_hasSite hrule hshaped hsite
    obtain ⟨q, hlater, howner, hiff⟩ := hplace kind children hpart
    obtain ⟨chain, hchain⟩ := hasSite_expectation.1 (hiff.2 hsite)
    obtain ⟨call, member, subject, argument, matching, hlinks⟩ := chain?_eq_some_iff.1 hchain
    obtain ⟨part, hsub, rfl⟩ := Option.map_eq_some_iff.1 hlinks.part
    obtain rfl : (Tree.node kind children).bare = part := Option.some.inj (hlater.symm.trans hsub)
    refine ⟨_, hpart, howner ▸ hlinks.loose, ?_⟩
    exact hlinks.asserts ((formed_parseTokens (tokensOf text)).sub? hlater) ((worded_parse text).sub? hlater)
  · rintro ⟨call, hpart, hloose, outer, -, inner, -, hasserts⟩
    obtain ⟨kind, children, rfl⟩ : ∃ kind children, call = .node kind children := by
      cases call with
      | leaf token =>
        obtain ⟨_, _, _, _, _, _, _, _, _, ⟨_, _, htree, -⟩, -⟩ := hasserts
        simp [bare] at htree
      | node kind children => exact ⟨kind, children, rfl⟩
    obtain ⟨q, hlater, howner, hiff⟩ := hplace kind children hpart
    refine hiff.1 (hasSite_expectation.2 ?_)
    exact hasserts.exists_chain ((formed_parseTokens (tokensOf text)).sub? hlater) hlater (howner ▸ hloose)

/-- A subscript of `expect` is taken for a call of it. -/
theorem mem_sitePaths_expectation_subscript :
    let tree := parse "expect[x].to(equal(1))\n"
    [0] ∈ expectation.sitePaths tree [] ∧
      ((tree.part? [0]).bind Part.expression?).bind (fun member => member.expression?.map Part.isSubscript) =
        some true := by
  simp only [Rule.mem_sitePaths]
  decide +kernel

end Rules

end SwiftTidy

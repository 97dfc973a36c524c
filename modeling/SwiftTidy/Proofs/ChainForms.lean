import SwiftTidy.Proofs.NodeStarts
import SwiftTidy.Proofs.Notes
import SwiftTidy.Proofs.Partings
import SwiftTidy.Proofs.Shortening
import SwiftTidy.Proofs.Signatures
import SwiftTidy.Proofs.TypedForms

/-!
# How chains were read

A chain that was found in a text was read there as a call of a member of its subject, and what its
matcher compares with as an argument without a label (`Rules.Expectation.Links.argued`).
-/

namespace SwiftTidy

namespace Grammar

open Phrase Test

variable {s t : Progress} {r rest : List Token} {kind : Kind} {children : List Tree}

/-! ## Arguments -/

/-- An argument has a label, or its value was read as that of an argument without one. -/
def ReadsArgument (kind : Kind) (children : List Tree) (rest : List Token) : Prop :=
  kind = .argument →
    (∃ name colon, .leaf name ∈ children ∧ name.kind.isName = true ∧ .leaf colon ∈ children ∧ colon.kind = .colon) ∨
      ∀ value ∈ children, value.IsExpression → children = [value] ∧ Argued value rest

lemma exists_taken {p : Kind → Bool} (h : (Test.sees 0 p).holds s.rest = true) :
    ∃ token, .leaf token ∈ s.flush.shift.built ∧ p token.kind = true := by
  obtain ⟨token, rest, hrest, hkind⟩ := exists_cons_of_holds h
  have hflush : s.flush.rest = token :: rest := hrest
  refine ⟨token, ?_, hkind⟩
  rw [Progress.shift, hflush]
  exact List.mem_append_right _ List.mem_cons_self

lemma readsArgument_of_runs {closing : Kind} (hgap : gap r = [])
    (h : Runs swift (argumentPhrase closing) ⟨[], r⟩ t) : ReadsArgument .argument t.built t.rest := by
  intro _
  obtain ⟨m, hlabel, hvalue⟩ := runs_inOrder_cons.1 h
  rw [runs_inOrder_singleton] at hvalue
  have hvalue : exprStart.holds m.rest = true ∧ Runs swift (.call (.expr false)) m t ∨ t = m ∨
      Runs swift (.node .error .take) m t := by
    simp only [firstOf, List.foldr_cons, List.foldr_nil, runs_choose_iff] at hvalue
    obtain h | ⟨-, ⟨-, hskip⟩ | ⟨-, herror⟩⟩ := hvalue
    · exact .inl h
    · exact .inr (.inl (runs_skip_iff.1 hskip))
    · exact .inr (.inr (runs_call_iff.1 herror))
  rw [runs_opt_iff] at hlabel
  obtain ⟨hlabel, hm⟩ | ⟨hlabel, rfl⟩ := hlabel
  · -- what is taken for the label stays
    have hfore : m.built <+: t.built := by
      obtain ⟨-, hexpr⟩ | rfl | herror := hvalue
      · obtain ⟨u, -, rfl⟩ := runs_mark_iff.1 (runs_call_iff.1 hexpr)
        exact (List.prefix_append _ _).trans (List.prefix_append _ _)
      · exact List.prefix_rfl
      · exact built_prefix_of_node herror
    obtain ⟨hname, hcolon⟩ := Bool.and_eq_true_iff.1 hlabel
    obtain ⟨m₁, hfirst, hsecond⟩ := runs_inOrder_cons.1 hm
    obtain rfl := runs_take_iff.1 hfirst
    obtain ⟨name, hname, hkind⟩ := exists_taken (s := ⟨[], r⟩) hname
    have hmore := built_prefix_of_take (runs_inOrder_singleton.1 hsecond)
    obtain rfl := runs_take_iff.1 (runs_inOrder_singleton.1 hsecond)
    obtain ⟨colon, hcolon, hcolonKind⟩ := exists_taken (holds_shift (s := ⟨[], r⟩) hcolon)
    exact .inl ⟨name, colon, hfore.subset (hmore.subset hname), hkind, hfore.subset hcolon,
      beq_iff_eq.1 hcolonKind⟩
  · refine .inr fun value hmem hexpression => ?_
    obtain ⟨hstart, hexpr⟩ | rfl | herror := hvalue
    · obtain hnil | ⟨kind, children, hbuilt, -⟩ := runs_expr_cases hgap hexpr
      · simp [hnil] at hmem
      · obtain ⟨built, rest⟩ := t
        obtain rfl : built = _ := hbuilt
        obtain rfl := List.mem_singleton.1 hmem
        exact ⟨rfl, r, hgap, hlabel, hstart, hexpr⟩
    · simp at hmem
    · obtain ⟨u, -, rfl⟩ := runs_node_iff.1 herror
      rw [flush_of_gap hgap] at hmem
      obtain rfl := List.mem_singleton.1 hmem
      cases hexpression.2

/-- Every argument that a run builds is read as one. -/
lemma Phrase.Runs.every_argument {phrase : Phrase Symbol} (h : Runs swift phrase s t) (hphrase : phrase.Heeds)
    (hs : s.Every ReadsArgument) : t.Every ReadsArgument := by
  induction h with
  | skip => exact hs
  | take => exact hs.flush.shift
  | @call X _ _ _ ih => exact ih (heeds_swift X) hs
  | seq _ _ ih₁ ih₂ => exact ih₂ hphrase.2 (ih₁ hphrase.1 hs)
  | yes _ _ ih => exact ih hphrase.2.1 hs
  | no _ _ ih => exact ih hphrase.2.2 hs
  | @node kind body s t h ih =>
    refine hs.open (ih hphrase.2 s.flush.every_fresh) h.tokens_eq fun heq => ?_
    subst heq
    obtain ⟨closing, rfl⟩ := hphrase.1
    exact readsArgument_of_runs (gap_pastGap _) h rfl
  | @mark body s t h ih => exact hs.mark (ih hphrase s.flush.every_fresh) h.tokens_eq
  | wrap _ ih => exact (ih hphrase.2 hs).node fun heq => absurd (by simp [heq]) hphrase.1

lemma readsArgument_of_parse (tokens : List Token) {path : Path}
    (h : (parseTokens tokens).sub? path = some (.node kind children)) :
    ReadsArgument kind children ((parseTokens tokens).behind path) := by
  obtain ⟨t, hruns, hflush⟩ := runs_parseTokens tokens
  have hevery := (hruns.every_argument trivial Tree.everyOf_nil).flush
  rw [hflush] at hevery
  have hwhole : (parseTokens tokens).Every ReadsArgument [] :=
    Tree.every_node.2 ⟨fun heq => (by cases heq), hevery⟩
  simpa using (Tree.every_node.1 (hwhole.sub? h)).1

end Grammar

/-! ## Places in a tree -/

namespace Tree

variable {tree part child : Tree} {p q : Path} {kind : Kind} {children : List Tree} {i : Nat}

/-- Whether a part of a tree may stand in the head of a statement, given whether the tree may. -/
def inHead (within : Bool) : Tree → Path → Bool
  | .node kind children, i :: path =>
    (children[i]?.map fun child => child.inHead (kind.heads within) path).getD within
  | _, _ => within

lemma inHead_concat {within : Bool} (h : tree.sub? p = some (.node kind children)) (hchild : children[i]? = some child) :
    tree.inHead within (p ++ [i]) = kind.heads (tree.inHead within p) := by
  induction p, tree, h using sub?_induction generalizing within with
  | here => simp [inHead, hchild]
  | inside kind before inner after p h ih => simpa [inHead] using ih

lemma behind_append (h : tree.sub? p = some part) (q : Path) : tree.behind (p ++ q) = part.behind q ++ tree.behind p := by
  induction p, tree, h using sub?_induction with
  | here => simp [behind]
  | inside kind before inner after p h ih => simp [behind, ih]

lemma behind_concat (h : tree.sub? p = some (.node kind children)) (hchild : children[i]? = some child) :
    tree.behind (p ++ [i]) = leavesOf (children.drop (i + 1)) ++ tree.behind p := by
  rw [behind_append h]
  simp [behind, hchild]

lemma leavesOf_eq_flatten (trees : List Tree) : leavesOf trees = (trees.map leaves).flatten := by
  induction trees with
  | nil => rfl
  | cons tree rest ih => rw [leavesOf_cons, ih, List.map_cons, List.flatten_cons]

/-- The tokens of a part come behind a part that precedes it. -/
lemma exists_behind_eq {other : Tree} (hpq : Path.Precedes p q) (hp : tree.sub? p = some other)
    (hq : tree.sub? q = some part) : ∃ between, tree.behind p = between ++ (part.leaves ++ tree.behind q) := by
  induction p generalizing tree q with
  | nil => exact absurd hpq (Path.not_nil_precedes q)
  | cons i p ih =>
    cases q with
    | nil => exact absurd hpq (Path.not_precedes_nil _)
    | cons j q =>
      obtain ⟨kind, children, child, rfl, hchild, hp⟩ := exists_child_of_sub?_cons hp
      obtain ⟨_, _, child', htree, hchild', hq⟩ := exists_child_of_sub?_cons hq
      obtain ⟨rfl, rfl⟩ := Tree.node.inj htree
      rw [Path.cons_precedes_cons] at hpq
      obtain hij | ⟨rfl, hpq⟩ := hpq
      · obtain ⟨front, hleaves, -⟩ := exists_startAt_eq hq
        obtain ⟨before, after, rfl, rfl⟩ := exists_append_of_getElem? hchild'
        refine ⟨child.behind p ++ (leavesOf (before.drop (i + 1)) ++ front), ?_⟩
        simp [behind, hchild, List.drop_append_of_le_length hij, hleaves]
      · obtain rfl := Option.some.inj (hchild.symm.trans hchild')
        obtain ⟨between, hbetween⟩ := ih hpq hp hq
        exact ⟨between, by simp [behind, hchild, hbetween]⟩

end Tree

lemma Part.label?_ne_none {part : Part} {name colon : Token} (hname : .leaf name ∈ part.tree.children)
    (hnameKind : name.kind.isName = true) (hcolon : .leaf colon ∈ part.tree.children) (hcolonKind : colon.kind = .colon) :
    part.label? ≠ none := by
  have htoken {token : Token} (h : .leaf token ∈ part.tree.children) : token ∈ part.tree.childTokens :=
    List.mem_filterMap.2 ⟨_, h, rfl⟩
  rw [label?, isSome_leaf?, if_pos (List.find?_isSome.2 ⟨colon, htoken hcolon, by simp [hcolonKind]⟩), name?, ne_eq,
    Option.map_eq_none_iff, List.find?_eq_none]
  exact fun hnone => hnone name (htoken hname) hnameKind

lemma Part.InPlace.inHead_child {part inner : Part} {within : Bool} {tree : Tree} (h : part.InPlace tree)
    (hchild : inner ∈ part.children) : tree.inHead within inner.path = part.kind.heads (tree.inHead within part.path) := by
  obtain ⟨p, part⟩ := part
  obtain ⟨-, i, hi, hget⟩ := h.child hchild
  cases part with
  | leaf token => simp [Tree.children] at hget
  | node kind children => rw [hi, Tree.inHead_concat h hget, Part.kind, Tree.kind]

namespace Rules

open Expectation Grammar

variable {tree call part later : Tree} {sites done : List Path} {path q : Path} {chain : Chain} {call' : Part}
  {text : String}

/-! ## Chains of a text -/

section

variable {member subject argument matching value : Part}
  (h : Links (parse text) path chain call' member subject argument matching)

include h

/-- The subject of a chain comes first. -/
lemma Expectation.Links.subject_path : subject.path = path ++ [0, 0] := by
  obtain ⟨rfl, hcall⟩ := Part.inPlace_of_part? h.part
  obtain ⟨hmember, hsubject, -⟩ := h.way
  have hplace := (hcall.child hmember).1
  have hmemberPath := h.member_path (shaped_parse text)
  obtain ⟨p, part⟩ := member
  obtain rfl : p = call'.path ++ [0] := hmemberPath
  have hnode : part.isNode = true := Part.isNode_of_expression? h.member_eq
  obtain ⟨row, rfl⟩ := Tree.exists_node_of_kind hnode h.member_kind
  have hbase := h.subject_eq
  obtain ⟨hmem, hexpression⟩ := Part.mem_children_of_expression? hbase
  obtain ⟨-, i, hi, hget⟩ := hplace.child hmem
  obtain ⟨first, hbegins, hfirst⟩ := ((shaped_parse text).sub? hplace).begins
  have hsubjectNode : subject.tree.isNode = true := Part.isNode_of_expression? hbase
  have hbareMem : subject.tree.bare ∈ Tree.bareOf row := Tree.bare_mem_bareOf (List.mem_of_getElem? hget) hsubjectNode
  have hfirst : ∃ kind children rest, row = .node kind children :: rest ∧ kind.isExpression = true := by
    have hcases : first = .token ∨ first = .expression := by simpa [Kind.begins, Kind.isExpression] using hbegins
    obtain rfl | rfl := hcases
    · -- an implied member has no base
      obtain ⟨token, rest, rfl, htoken⟩ := hfirst
      obtain ⟨tokens, htokens⟩ | ⟨base, dot, name, hrow, hbase, -⟩ := callForm_of_parse hplace
      · rw [htokens] at hbareMem
        obtain ⟨token, -, htree⟩ := List.mem_map.1 hbareMem
        rw [← Tree.isNode_bare, ← htree] at hsubjectNode
        cases hsubjectNode
      · rw [Tree.bareOf_eq_map, List.filter_cons_of_pos (by simp [Tree.isTriviaLeaf, htoken])] at hrow
        obtain ⟨rfl, -⟩ := List.cons.inj hrow
        cases hbase.1
    · exact hfirst
  obtain ⟨kind, children, rest, rfl, hkind⟩ := hfirst
  simp only [Part.expression?, Part.expressions, Part.nodes, Part.children, Tree.children, List.mapIdx_cons, Tree.isNode,
    Part.kind, Tree.kind, hkind, List.filter_cons_of_pos, List.head?_cons, Option.some.injEq] at hbase
  rw [← hbase, List.append_assoc]
  rfl

/-- A chain begins with its subject. -/
lemma Expectation.Links.exists_shape (hcall : (parse text).sub? path = some call) :
    ∃ dots more, call = .node .callExpr (.node .memberExpr (subject.tree :: dots) :: more) := by
  obtain ⟨hpath, hplace⟩ := Part.inPlace_of_part? h.part
  obtain ⟨hmember, hsubject, -⟩ := h.way
  have hmemberPlace := (hplace.child hmember).1
  have hsubjectPlace := (hmemberPlace.child hsubject).1
  rw [Part.InPlace, h.member_path (shaped_parse text), hpath, Tree.sub?_concat, hcall] at hmemberPlace
  rw [Part.InPlace, h.subject_path, ← List.singleton_append, ← List.append_assoc, Tree.sub?_concat, Tree.sub?_concat, hcall,
    Option.bind_some, show call.children[0]? = _ from hmemberPlace] at hsubjectPlace
  obtain rfl : call'.tree = call := by
    rw [Part.InPlace, hpath, hcall] at hplace
    exact (Option.some.inj hplace).symm
  obtain ⟨children, hchildren⟩ := Tree.exists_node_of_kind h.isCall.1 h.isCall.2
  rw [hchildren] at hmemberPlace ⊢
  obtain ⟨row, hrow⟩ := Tree.exists_node_of_kind (Part.isNode_of_expression? h.member_eq) h.member_kind
  rw [hrow] at hmemberPlace hsubjectPlace
  obtain ⟨more, rfl⟩ : ∃ more, children = .node .memberExpr row :: more := List.head?_eq_some_iff.1 (by
    rw [List.head?_eq_getElem?]; exact hmemberPlace)
  obtain ⟨dots, rfl⟩ : ∃ dots, row = subject.tree :: dots := List.head?_eq_some_iff.1 (by
    rw [List.head?_eq_getElem?]; exact hsubjectPlace)
  exact ⟨dots, more, rfl⟩

/-- What a matcher compares with was read as an argument without a label, and not in the head of a statement. -/
lemma Expectation.Links.argued (hvalue : value? matching = some value) :
    value.InPlace (parse text) ∧ value.tree.IsExpression ∧ Argued value.tree ((parse text).behind value.path) ∧
      (parse text).inHead false value.path = false ∧ (parse text).ownerKind? value.path = some .argument := by
  obtain ⟨-, hcall⟩ := Part.inPlace_of_part? h.part
  obtain ⟨first, hfirst, hvalue⟩ := Option.bind_eq_some_iff.1 hvalue
  have harguments : argument ∈ call'.arguments := by simp [h.arguments_eq]
  obtain ⟨list, hlist, hlistKind, hargument⟩ := Part.exists_argumentList harguments
  obtain ⟨inner, hinner, hinnerKind, hfirstChild⟩ := Part.exists_argumentList (List.mem_of_head? hfirst)
  have hargumentKind := Part.kind_of_mem_arguments harguments
  have hfirstKind := Part.kind_of_mem_arguments (List.mem_of_head? hfirst)
  obtain ⟨hmatchingChild, -⟩ := Part.mem_children_of_expression? h.matching_eq
  obtain ⟨hvalueChild, hexpression⟩ := Part.mem_children_of_expression? hvalue
  have hlistPlace := (hcall.child hlist).1
  have hargumentPlace := (hlistPlace.child hargument).1
  have hmatchingPlace := (hargumentPlace.child hmatchingChild).1
  have hinnerPlace := (hmatchingPlace.child hinner).1
  have hfirstPlace := (hinnerPlace.child hfirstChild).1
  refine ⟨(hfirstPlace.child hvalueChild).1, ⟨Part.isNode_of_expression? hvalue, hexpression⟩, ?_, ?_, ?_⟩
  · obtain ⟨-, i, hi, hget⟩ := hfirstPlace.child hvalueChild
    have hunlabelled := h.matching_unlabelled first (List.mem_of_head? hfirst)
    obtain ⟨p, part⟩ := first
    have hnode : part.isNode = true := by
      cases part with
      | leaf token => simp [Tree.children] at hget
      | node => rfl
    obtain ⟨children, rfl⟩ := Tree.exists_node_of_kind hnode hfirstKind
    have hargument := readsArgument_of_parse (tokensOf text) hfirstPlace rfl
    obtain ⟨name, colon, hname, hnameKind, hcolon, hcolonKind⟩ | hargued := hargument
    · exact absurd hunlabelled (Part.label?_ne_none hname hnameKind hcolon hcolonKind)
    · obtain ⟨rfl, hargued⟩ := hargued value.tree (List.mem_of_getElem? hget)
        ⟨Part.isNode_of_expression? hvalue, hexpression⟩
      rw [hi, Tree.behind_concat hfirstPlace hget]
      obtain rfl : i = 0 := by simpa [Tree.children] using (List.getElem?_eq_some_iff.1 hget).1
      exact hargued
  · rw [hfirstPlace.inHead_child hvalueChild, hfirstKind, hinnerPlace.inHead_child hfirstChild, hinnerKind]
    rfl
  · obtain ⟨-, i, hi, -⟩ := hfirstPlace.child hvalueChild
    rw [hi, Tree.ownerKind?_concat, hfirstPlace, Option.map_some]
    exact congrArg some hfirstKind

end

/-! ## Chains and comparisons -/

lemma Expectation.exists_operator (h : chain? tree path = some chain) :
    ∃ operator, Operator.ofTokens? (tokensOf chain.operator) = some operator ∧
      operator.tokens = tokensOf chain.operator := by
  obtain ⟨call, member, subject, argument, matching, links⟩ := chain?_eq_some_iff.1 h
  obtain ⟨-, negated, -, -, hnegated⟩ := links.negated
  have hall : ∀ matcher ∈ Matcher.all, ∀ negated, ∀ operator ∈ matcher.operator? negated,
      (tokensOf operator).head?.any (fun token => [Kind.operator, .langle, .rangle].contains token.kind) = true ∧
        ∀ token ∈ (tokensOf operator).tail, token.kind.isOperatorPart = true := by decide +kernel
  obtain ⟨hhead, htail⟩ := hall _ links.matcher_mem negated _ hnegated
  exact ⟨⟨_, hhead, htail⟩, dif_pos ⟨hhead, htail⟩, rfl⟩

/-- A matcher compares with a literal or with an operand. -/
lemma Expectation.Links.isSome_value? {member subject argument matching : Part}
    (h : Links tree path chain call' member subject argument matching) :
    (value? matching).isSome = chain.matcher.literal?.isNone := by
  have hlength := h.matching_arguments
  have hoperand := h.operand
  rw [operand?] at hoperand
  rw [value?]
  cases hliteral : chain.matcher.literal? with
  | some literal =>
    rw [Matcher.arity, hliteral, Option.isSome_some, if_pos rfl, List.length_eq_zero_iff] at hlength
    rw [hlength]
    rfl
  | none =>
    rw [Matcher.arity, hliteral, Option.isSome_none, if_neg (by simp), List.length_eq_one_iff] at hlength
    obtain ⟨first, hfirst⟩ := hlength
    rw [hfirst] at hoperand ⊢
    cases hvalue : first.expression? with
    | none => simp [hvalue] at hoperand
    | some value => simp [hvalue]

/-- What is called in a chain is no chain. -/
lemma Expectation.Links.subject_not_mem {member subject argument matching : Part}
    (h : Links tree path chain call' member subject argument matching)
    (hfound : ∀ p ∈ done, ∃ chain, chain? tree p = some chain) : subject.path ∉ done := by
  intro hmem
  obtain ⟨inner, hinner⟩ := hfound _ hmem
  obtain ⟨_, _, _, _, _, inners⟩ := chain?_eq_some_iff.1 hinner
  obtain ⟨-, hcall⟩ := Part.inPlace_of_part? h.part
  obtain ⟨hmember, hsubject, -⟩ := h.way
  have hplace := (hcall.child hmember).1
  obtain ⟨-, i, hi, -⟩ := hplace.child hsubject
  have hloose := inners.loose
  have hkind : member.tree.kind = .memberExpr := h.member_kind
  rw [hi, Tree.ownerKind?_concat, hplace, Option.map_some, Option.any_some, hkind] at hloose
  cases hloose

end Rules

end SwiftTidy

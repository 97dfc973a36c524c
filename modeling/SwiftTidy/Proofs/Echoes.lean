import SwiftTidy.Proofs.Chains
import SwiftTidy.Proofs.Trimming
import Mathlib.Data.List.Forall2

/-!
# Chains in a tree that other edits have touched

Between the time a chain is found and the time it is rewritten other edits come to pass: trivia and return clauses
are taken out, and comparisons take the place of other chains. A tree that went through such edits echoes the first
one, and a chain is found in it exactly where it was found before (`Rules.Expectation.rel_chain?`). This is
because nothing that a chain consists of is touched. What calls a member is replaced only where it is not part of
a tighter expression, so neither what a chain expects nor its matcher is ever replaced by itself.
-/

namespace SwiftTidy

namespace Tree

open Rules.Expectation (bindsTightly)

/-- The expressions among the children of a tree. -/
def childExpressions (tree : Tree) : List Tree := tree.childNodes.filter fun child => child.kind.isExpression

/-- Whether a tree is a call of a member. -/
def callsMember (tree : Tree) : Bool :=
  tree.isNode && tree.kind == .callExpr && tree.childExpressions.head?.any fun callee => callee.kind == .memberExpr

/-- A comparison has taken the place of a call of a member, in a node of kind `owner`. -/
structure Compared (owner : Kind) (call comparison : Tree) : Prop where
  loose : bindsTightly owner = false
  call : call.callsMember = true
  comparison : comparison.isNode = true ∧ comparison.kind = .binaryExpr

mutual

/-- The second tree is what edits have made of the first, which itself was not replaced. -/
def Echo : Tree → Tree → Prop
  | .leaf token, later => later = .leaf token
  | .node kind children, later => ∃ laters, later = .node kind laters ∧ EchoOf kind children laters

/-- The second row is what edits have made of the first, both of them children of nodes of kind `owner`. -/
def EchoOf (owner : Kind) : List Tree → List Tree → Prop
  | [], laters => laters = []
  | child :: rest, laters =>
    (∃ later more, laters = later :: more ∧ (child.Echo later ∨ child.Compared owner later) ∧
      EchoOf owner rest more) ∨
    (child.isSpare owner = true ∧ EchoOf owner rest laters)

end

/-- What edits have made of a child of a node of kind `owner`. -/
def EchoIn (owner : Kind) (child later : Tree) : Prop := child.Echo later ∨ child.Compared owner later

variable {owner : Kind} {tree later : Tree} {row laters : List Tree}

lemma echo_leaf {token : Token} : (Tree.leaf token).Echo later ↔ later = .leaf token := by rw [Echo]

lemma echo_node {kind : Kind} {children : List Tree} :
    (Tree.node kind children).Echo later ↔ ∃ laters, later = .node kind laters ∧ EchoOf kind children laters := by
  rw [Echo]

mutual

lemma Trims.echo {tree later : Tree} (h : tree.Trims later) : tree.Echo later := by
  cases tree with
  | leaf token => exact echo_leaf.2 (trims_leaf.1 h)
  | node kind children =>
    obtain ⟨laters, rfl, hchildren⟩ := trims_node.1 h
    exact echo_node.2 ⟨laters, rfl, hchildren.echoOf⟩

lemma TrimsOf.echoOf {owner : Kind} {row laters : List Tree} (h : TrimsOf owner row laters) :
    EchoOf owner row laters := by
  cases row with
  | nil =>
    rw [TrimsOf] at h
    rwa [EchoOf]
  | cons child rest =>
    rw [TrimsOf] at h
    rw [EchoOf]
    rcases h with ⟨later, more, rfl, hchild, hrest⟩ | ⟨hspare, hrest⟩
    · exact Or.inl ⟨later, more, rfl, Or.inl hchild.echo, hrest.echoOf⟩
    · exact Or.inr ⟨hspare, hrest.echoOf⟩

end

lemma Echo.isNode_eq (h : tree.Echo later) : later.isNode = tree.isNode := by
  cases tree with
  | leaf token => rw [echo_leaf.1 h]
  | node kind children =>
    obtain ⟨laters, rfl, -⟩ := echo_node.1 h
    rfl

lemma Echo.kind_eq (h : tree.Echo later) : later.kind = tree.kind := by
  cases tree with
  | leaf token => rw [echo_leaf.1 h]
  | node kind children =>
    obtain ⟨laters, rfl, -⟩ := echo_node.1 h
    rfl

lemma Echo.children (h : tree.Echo later) : EchoOf tree.kind tree.children later.children := by
  cases tree with
  | leaf token =>
    rw [echo_leaf.1 h]
    simp [Tree.children, EchoOf]
  | node kind children =>
    obtain ⟨laters, rfl, hchildren⟩ := echo_node.1 h
    exact hchildren

lemma Compared.isNode (h : tree.Compared owner later) : tree.isNode = true := by
  have := h.call
  simp only [callsMember, Bool.and_eq_true] at this
  exact this.1.1

lemma Compared.kind (h : tree.Compared owner later) : tree.kind = .callExpr := by
  have := h.call
  simp only [callsMember, Bool.and_eq_true, beq_iff_eq] at this
  exact this.1.2

lemma EchoIn.isNode_eq (h : tree.EchoIn owner later) : later.isNode = tree.isNode := by
  rcases h with h | h
  · exact h.isNode_eq
  · rw [h.isNode, h.comparison.1]

lemma EchoIn.of_kind {p : Kind → Bool} (hp : p .binaryExpr = p .callExpr) (h : tree.EchoIn owner later) :
    p later.kind = p tree.kind := by
  rcases h with h | h
  · rw [h.kind_eq]
  · rw [h.kind, h.comparison.2, hp]

lemma EchoIn.echo_of_tight (h : tree.EchoIn owner later) (htight : bindsTightly owner = true) :
    tree.Echo later := by
  rcases h with h | h
  · exact h
  · simp [h.loose] at htight

lemma EchoIn.echo_of_kind (h : tree.EchoIn owner later) (hkind : tree.kind ≠ .callExpr) : tree.Echo later := by
  rcases h with h | h
  · exact h
  · exact absurd h.kind hkind

/-- The child nodes correspond, unless the node is a signature. -/
lemma EchoOf.forall₂_nodes (howner : owner ≠ .functionSignature ∧ owner ≠ .closureSignature)
    (h : EchoOf owner row laters) :
    List.Forall₂ (EchoIn owner) (row.filter isNode) (laters.filter isNode) := by
  induction row generalizing laters with
  | nil =>
    obtain rfl : laters = [] := by simpa [EchoOf] using h
    simp
  | cons child rest ih =>
    rw [EchoOf] at h
    rcases h with ⟨later, more, rfl, hchild, hrest⟩ | ⟨hspare, hrest⟩
    · have hchild : child.EchoIn owner later := hchild
      rw [List.filter_cons, List.filter_cons, hchild.isNode_eq]
      split
      · exact List.Forall₂.cons hchild (ih hrest)
      · exact ih hrest
    · cases child with
      | leaf token => simpa [Tree.isNode] using ih hrest
      | node kind children => simp [isSpare, howner.1, howner.2] at hspare

/-- The significant tokens among the children are the same. -/
lemma EchoOf.tokens_eq (h : EchoOf owner row laters) :
    (laters.filterMap token?).filter (!·.isTrivia) = (row.filterMap token?).filter (!·.isTrivia) := by
  induction row generalizing laters with
  | nil =>
    obtain rfl : laters = [] := by simpa [EchoOf] using h
    rfl
  | cons child rest ih =>
    rw [EchoOf] at h
    rcases h with ⟨later, more, rfl, hchild, hrest⟩ | ⟨hspare, hrest⟩
    · have hchild : child.EchoIn owner later := hchild
      cases child with
      | leaf token =>
        have hleaf : (Tree.leaf token).Echo later := by
          rcases hchild with h | h
          · exact h
          · exact absurd h.isNode (by simp [Tree.isNode])
        obtain rfl := echo_leaf.1 hleaf
        simp [token?, List.filter_cons, ih hrest]
      | node kind children =>
        have hnode := hchild.isNode_eq
        cases later with
        | leaf token => simp [Tree.isNode] at hnode
        | node kind' children' => simpa [List.filterMap_cons, token?] using ih hrest
    · cases child with
      | leaf token =>
        have htrivia : token.isTrivia = true := hspare
        simpa [List.filterMap_cons, token?, List.filter_cons, htrivia] using ih hrest
      | node kind children => simpa [List.filterMap_cons, token?] using ih hrest

lemma EchoOf.head {token : Token} (htoken : token.isTrivia = false) (h : EchoOf owner (.leaf token :: row) laters) :
    ∃ more, laters = .leaf token :: more := by
  rw [EchoOf] at h
  rcases h with ⟨later, more, rfl, hleaf | hleaf, -⟩ | ⟨hspare, -⟩
  · obtain rfl := echo_leaf.1 hleaf
    exact ⟨more, rfl⟩
  · exact absurd hleaf.isNode (by simp [Tree.isNode])
  · simp [isSpare, htoken] at hspare

end Tree

/-! ## Options that correspond -/

section Options

variable {α β γ δ : Type} {R : α → β → Prop} {S : γ → δ → Prop}

lemma rel_bind {x : Option α} {y : Option β} {f : α → Option γ} {g : β → Option δ} (h : Option.Rel R x y)
    (hf : ∀ a b, R a b → Option.Rel S (f a) (g b)) : Option.Rel S (x >>= f) (y >>= g) := by
  cases h with
  | none => exact .none
  | some hab => exact hf _ _ hab

lemma rel_guard_bind {c d : Bool} {f : Unit → Option γ} {g : Unit → Option δ} (hc : d = c)
    (h : c = true → Option.Rel S (f ()) (g ())) :
    Option.Rel S ((guard (c = true) : Option Unit) >>= f) ((guard (d = true) : Option Unit) >>= g) := by
  subst hc
  cases d
  · exact .none
  · exact h rfl

lemma rel_eq (x : Option α) : Option.Rel Eq x x := by
  cases x with
  | none => exact .none
  | some a => exact .some rfl

lemma rel_cases {x : Option α} {y : Option β} (h : Option.Rel R x y) :
    (x = none ∧ y = none) ∨ ∃ a b, x = some a ∧ y = some b ∧ R a b := by
  cases h with
  | none => exact Or.inl ⟨rfl, rfl⟩
  | some hab => exact Or.inr ⟨_, _, rfl, rfl, hab⟩

lemma isNone_of_rel {x : Option α} {y : Option β} (h : Option.Rel R x y) : y.isNone = x.isNone := by
  cases h <;> rfl

lemma rel_head? {xs : List α} {ys : List β} (h : List.Forall₂ R xs ys) : Option.Rel R xs.head? ys.head? := by
  cases h with
  | nil => exact .none
  | cons hab _ => exact .some hab

lemma rel_find? {xs : List α} {ys : List β} {p : α → Bool} {q : β → Bool} (h : List.Forall₂ R xs ys)
    (hpq : ∀ a b, R a b → q b = p a) : Option.Rel (fun a b => R a b ∧ p a = true) (xs.find? p) (ys.find? q) := by
  induction h with
  | nil => exact .none
  | cons hab _ ih =>
    rw [List.find?_cons, List.find?_cons, hpq _ _ hab]
    split
    next hp => exact .some ⟨hab, hp⟩
    next => exact ih

lemma rel_mono {R' : α → β → Prop} {x : Option α} {y : Option β} (h : Option.Rel R x y)
    (himp : ∀ a b, R a b → R' a b) : Option.Rel R' x y := by
  cases h with
  | none => exact .none
  | some hab => exact .some (himp _ _ hab)

end Options

/-! ## Parts -/

namespace Part

open SwiftTidy.Tree (EchoIn)
open Rules.Expectation (bindsTightly)

variable {part later : Part}

lemma map_tree_nodes (part : Part) : part.nodes.map Part.tree = part.tree.childNodes := by
  have hchildren : part.children.map Part.tree = part.tree.children := by
    apply List.ext_getElem?
    intro i
    simp [children, Function.comp_def]
  rw [nodes, Tree.childNodes, ← hchildren, List.filter_map]
  rfl

lemma head?_childExpressions (part : Part) :
    part.tree.childExpressions.head? = part.expression?.map Part.tree := by
  rw [Tree.childExpressions, ← map_tree_nodes, List.filter_map, List.head?_map]
  rfl

/-- The kinds whose nodes keep all their child nodes. -/
def keepsNodes (kind : Kind) : Bool := kind != .functionSignature && kind != .closureSignature

section

variable (h : part.tree.Echo later.tree)

include h

lemma forall₂_nodes (hkind : keepsNodes part.kind = true) :
    List.Forall₂ (fun a b => EchoIn part.kind a.tree b.tree) part.nodes later.nodes := by
  have hnodes := h.children.forall₂_nodes (by simpa [keepsNodes, kind] using hkind)
  have hnodes' : List.Forall₂ (EchoIn part.kind) (part.nodes.map Part.tree) (later.nodes.map Part.tree) := by
    rw [map_tree_nodes, map_tree_nodes]
    exact hnodes
  simpa using hnodes'

lemma rel_node? (hpart : keepsNodes part.kind = true) {kind : Kind} (hcall : kind ≠ .callExpr)
    (hbinary : kind ≠ .binaryExpr) :
    Option.Rel (fun a b => a.tree.Echo b.tree ∧ a.kind = kind) (part.node? kind) (later.node? kind) := by
  have hrel := rel_find? (p := fun child => child.kind == kind) (q := fun child => child.kind == kind)
    (forall₂_nodes h hpart) (fun a b hab => hab.of_kind (p := (· == kind)) (by grind))
  refine rel_mono hrel fun a b hab => ?_
  have hkind : a.kind = kind := by simpa using hab.2
  exact ⟨hab.1.echo_of_kind (by rw [← Part.kind, hkind]; exact hcall), hkind⟩

lemma rel_expression? (hpart : keepsNodes part.kind = true) :
    Option.Rel (fun a b => EchoIn part.kind a.tree b.tree) part.expression? later.expression? :=
  rel_head? (List.rel_filter (fun _ _ hab => by simp only [kind, hab.of_kind (p := Kind.isExpression) rfl])
    (forall₂_nodes h hpart))

lemma find?_childTokens {p : Token → Bool} (hp : ∀ token, p token = true → token.isTrivia = false) :
    later.tree.childTokens.find? p = part.tree.childTokens.find? p := by
  have hfilter : ∀ tokens : List Token, tokens.find? p = (tokens.filter (!·.isTrivia)).find? p := by
    intro tokens
    rw [List.find?_filter]
    congr
    ext token
    cases hpt : p token with
    | false => simp
    | true => simp [hp token hpt]
  rw [hfilter later.tree.childTokens, hfilter part.tree.childTokens]
  exact congrArg (List.find? p) h.children.tokens_eq

lemma name?_eq : later.name? = part.name? := by
  rw [name?, name?, find?_childTokens h]
  intro token htoken
  have hkinds : ∀ kind : Kind, (kind == .ident || kind.isKeyword) = true → kind.isTrivia = false := by
    intro kind
    cases kind <;> decide
  exact hkinds token.kind htoken

end

lemma isSome_leaf? (part : Part) (kind : Kind) :
    (part.leaf? kind).isSome = (part.tree.childTokens.find? fun token => token.kind == kind).isSome := by
  rw [Bool.eq_iff_iff, leaf?, List.find?_isSome, List.find?_isSome]
  simp only [Bool.and_eq_true, Bool.not_eq_true', beq_iff_eq, Tree.childTokens, List.mem_filterMap]
  constructor
  · rintro ⟨child, hchild, hleaf, hkind⟩
    obtain ⟨i, hi⟩ := List.mem_iff_getElem?.1 hchild
    obtain ⟨path, tree⟩ := child
    cases tree with
    | node k cs => simp [Tree.isNode] at hleaf
    | leaf token =>
      simp only [children, List.getElem?_mapIdx, Option.map_eq_some_iff, Part.mk.injEq] at hi
      obtain ⟨tree, htree, -, rfl⟩ := hi
      exact ⟨token, ⟨_, List.mem_of_getElem? htree, rfl⟩, hkind⟩
  · rintro ⟨token, ⟨tree, htree, htoken⟩, hkind⟩
    cases tree with
    | node k cs => simp [Tree.token?] at htoken
    | leaf token' =>
      obtain rfl : token' = token := by simpa [Tree.token?] using htoken
      obtain ⟨i, hi⟩ := List.mem_iff_getElem?.1 htree
      refine ⟨⟨part.path ++ [i], .leaf token'⟩, ?_, rfl, hkind⟩
      exact List.mem_of_getElem? (i := i) (by simp [children, hi])

variable (h : part.tree.Echo later.tree)

include h

lemma label?_eq : later.label? = part.label? := by
  rw [label?, label?, isSome_leaf?, isSome_leaf?, find?_childTokens h, name?_eq h]
  intro token htoken
  simp_all [Token.isTrivia, Kind.isTrivia]

variable (hpart : part.kind = .callExpr)

include hpart

lemma calledName?_eq : later.calledName? = part.calledName? := by
  have hrel := rel_expression? h (by simp [keepsNodes, hpart])
  rw [calledName?, calledName?]
  rcases rel_cases hrel with ⟨ha, hb⟩ | ⟨a, b, ha, hb, hab⟩
  · rw [ha, hb]
  · have hecho := hab.echo_of_tight (by simp [bindsTightly, hpart])
    rw [ha, hb, Option.bind_some, Option.bind_some, kind, kind, hecho.kind_eq, name?_eq hecho]

lemma isNone_trailingClosure? : later.trailingClosure?.isNone = part.trailingClosure?.isNone := by
  have hnodes := List.forall₂_drop 1 (forall₂_nodes h (by simp [keepsNodes, hpart]))
  exact isNone_of_rel (rel_find? hnodes fun a b hab => hab.of_kind (p := (· == .closureExpr)) rfl)

lemma rel_argumentList? :
    Option.Rel (fun a b => a.tree.Echo b.tree ∧ a.kind = .argumentList) part.argumentList?
      later.argumentList? :=
  rel_node? h (by simp [keepsNodes, hpart]) (by simp) (by simp)

lemma forall₂_arguments :
    List.Forall₂ (fun a b => a.tree.Echo b.tree ∧ a.kind = .argument) part.arguments later.arguments := by
  rw [arguments, arguments]
  rcases rel_cases (rel_argumentList? h hpart) with ⟨ha, hb⟩ | ⟨list, list', ha, hb, hlist, hkind⟩
  · rw [ha, hb]
    exact .nil
  · rw [ha, hb]
    have hnodes := forall₂_nodes hlist (by simp [keepsNodes, hkind])
    have harguments : List.Forall₂ (fun a b => EchoIn list.kind a.tree b.tree) list.listedArguments
        list'.listedArguments :=
      List.rel_filter (fun _ _ hab => by simp only [kind, hab.of_kind (p := (· == .argument)) rfl]) hnodes
    rw [List.forall₂_iff_zip] at harguments ⊢
    refine ⟨harguments.1, fun {a b} hab => ?_⟩
    have hargument : a.kind = .argument := by
      simpa using (List.mem_filter.1 (List.of_mem_zip hab).1).2
    exact ⟨(harguments.2 hab).echo_of_kind (by rw [← kind, hargument]; simp), hargument⟩

lemma isSubscript_eq (hshaped : part.tree.Shaped) : later.isSubscript = part.isSubscript := by
  rw [isSubscript, isSubscript]
  rcases rel_cases (rel_argumentList? h hpart) with ⟨ha, hb⟩ | ⟨list, list', ha, hb, hlist, hkind⟩
  · rw [ha, hb]
  · rw [ha, hb]
    -- the bracket stands first and stays there
    have hfirst : ∃ token more, list.tree = .node .argumentList (.leaf token :: more) ∧
        token.isTrivia = false := by
      have hmem : list ∈ part.nodes := List.mem_of_find?_eq_some ha
      have hchild : list.tree ∈ part.tree.childNodes := by
        rw [← map_tree_nodes]
        exact List.mem_map_of_mem hmem
      obtain ⟨hchild, hnode⟩ := List.mem_filter.1 hchild
      have hshape := hshaped.child hchild
      obtain ⟨path, tree⟩ := list
      obtain ⟨row, rfl⟩ := Tree.exists_node_of_kind hnode hkind
      obtain ⟨token, more, rfl, htoken⟩ := hshape.begins_token rfl
      exact ⟨token, more, rfl, htoken⟩
    obtain ⟨token, more, hlist₀, htoken⟩ := hfirst
    rw [hlist₀, Tree.echo_node] at hlist
    obtain ⟨laters, hlist', hchildren⟩ := hlist
    obtain ⟨more', rfl⟩ := hchildren.head htoken
    simp [hlist₀, hlist', Tree.firstToken?]

end Part

/-! ## Chains -/

namespace Rules.Expectation

open SwiftTidy.Tree (EchoIn)

/-- The same matcher is asked for, with what edits have made of the operands. -/
structure Chain.Echoes (chain later : Chain) : Prop where
  subject : chain.subject.Echo later.subject
  matcher : later.matcher = chain.matcher
  operator : later.operator = chain.operator
  argument : Option.Rel (EchoIn .argument) chain.argument? later.argument?

lemma rel_call? {part later : Part} (h : part.tree.Echo later.tree) :
    Option.Rel (fun a b => a = part ∧ b = later ∧ part.kind = .callExpr) (call? part) (call? later) := by
  rw [call?, call?, Part.kind, Part.kind, h.isNode_eq, h.kind_eq]
  split
  next hcall => exact .some ⟨rfl, rfl, by simpa [Part.kind] using (Bool.and_eq_true_iff.1 hcall).2⟩
  next => exact .none

lemma calledName?_of_callsMember {part : Part} (h : part.tree.callsMember = true) : part.calledName? = none := by
  simp only [Tree.callsMember, Part.head?_childExpressions, Bool.and_eq_true, Option.any_map] at h
  rw [Part.calledName?]
  cases hcallee : part.expression? with
  | none => rfl
  | some callee =>
    have hkind : callee.kind = .memberExpr := by simpa [hcallee, Part.kind] using h.2
    simp [hkind]

lemma all_label? {arguments laters : List Part}
    (h : List.Forall₂ (fun a b => a.tree.Echo b.tree ∧ a.kind = .argument) arguments laters) :
    (laters.all fun part => part.label?.isNone) = arguments.all fun part => part.label?.isNone := by
  induction h with
  | nil => rfl
  | cons hab _ ih => rw [List.all_cons, List.all_cons, ih, Part.label?_eq hab.1]

/-- The argument of a matcher, where there is one. -/
lemma rel_finish {matching matching' : Part} {subject subject' : Tree} {matcher : Matcher} {operator : String}
    (h : List.Forall₂ (fun a b => a.tree.Echo b.tree ∧ a.kind = .argument) matching.arguments matching'.arguments)
    (hsubject : subject.Echo subject') :
    Option.Rel Chain.Echoes
      (match matching.arguments.head? with
        | none => pure ⟨subject, matcher, operator, none⟩
        | some first => first.expression?.bind fun part => pure ⟨subject, matcher, operator, some part.tree⟩)
      (match matching'.arguments.head? with
        | none => pure ⟨subject', matcher, operator, none⟩
        | some first => first.expression?.bind fun part => pure ⟨subject', matcher, operator, some part.tree⟩) := by
  rcases rel_cases (rel_head? h) with ⟨ha, hb⟩ | ⟨first, first', ha, hb, hfirst, hkind⟩
  · rw [ha, hb]
    exact .some ⟨hsubject, rfl, rfl, .none⟩
  · rw [ha, hb]
    refine rel_bind (Part.rel_expression? hfirst (by simp [Part.keepsNodes, hkind])) ?_
    intro part part' hpart
    rw [hkind] at hpart
    exact .some ⟨hsubject, rfl, rfl, .some hpart⟩

/-- A chain is found exactly where it was found before. -/
theorem rel_chain? {tree later : Tree} {path path' : Path} {part part' : Tree} (hpart : tree.sub? path = some part)
    (hpart' : later.sub? path' = some part') (h : part.Echo part')
    (howner : later.ownerKind? path' = tree.ownerKind? path) (hshaped : part.Shaped) :
    Option.Rel Chain.Echoes (chain? tree path) (chain? later path') := by
  have hplace : Option.Rel (fun a b => a = ⟨path, part⟩ ∧ b = ⟨path', part'⟩) (tree.part? path)
      (later.part? path') := by
    rw [Tree.part?, Tree.part?, hpart, hpart']
    exact .some ⟨rfl, rfl⟩
  unfold chain?
  refine rel_bind hplace ?_
  rintro _ _ ⟨rfl, rfl⟩
  refine rel_bind (rel_call? h) ?_
  rintro call call' ⟨rfl, rfl, hcall⟩
  refine rel_guard_bind ?_ fun _ => rel_guard_bind (by rw [howner]) fun _ => ?_
  · rw [Part.isSubscript_eq h hcall hshaped, Part.isNone_trailingClosure? h hcall]
  -- what is called binds tightly, and so does what it is a member of
  refine rel_bind (Part.rel_expression? h (by simp [Part.keepsNodes, hcall])) ?_
  intro member member' hmember
  replace hmember := hmember.echo_of_tight (by simp [bindsTightly, hcall])
  refine rel_guard_bind (by rw [Part.kind, Part.kind, hmember.kind_eq]) fun hkind => ?_
  have hkind : member.kind = .memberExpr := by simpa using hkind
  rw [Part.name?_eq hmember]
  refine rel_bind (rel_eq member.name?) ?_
  rintro name _ rfl
  refine rel_bind (rel_eq (ruledOut? name)) ?_
  rintro negated _ rfl
  refine rel_bind (Part.rel_expression? hmember (by simp [Part.keepsNodes, hkind])) ?_
  intro subject subject' hsubject
  replace hsubject := hsubject.echo_of_tight (by simp [bindsTightly, hkind])
  refine rel_bind (rel_call? hsubject) ?_
  rintro _ _ ⟨rfl, rfl, hsubjectCall⟩
  rw [Part.calledName?_eq hsubject hsubjectCall]
  refine rel_bind (rel_eq _) ?_
  rintro expect _ rfl
  refine rel_guard_bind rfl fun _ => rel_guard_bind ?_ fun _ => ?_
  · rw [Part.isNone_trailingClosure? hsubject hsubjectCall,
      (Part.forall₂_arguments hsubject hsubjectCall).length_eq]
  have harguments : List.Forall₂ (fun a b => a.tree.Echo b.tree ∧ a.kind = .argument)
      (Part.arguments ⟨path, part⟩) (Part.arguments ⟨path', part'⟩) := Part.forall₂_arguments h hcall
  generalize Part.arguments ⟨path, part⟩ = arguments at harguments ⊢
  generalize Part.arguments ⟨path', part'⟩ = arguments' at harguments ⊢
  rcases harguments with _ | ⟨hargument, _ | ⟨_, _⟩⟩
  · exact .none
  · obtain ⟨hargument, hargumentKind⟩ := hargument
    refine rel_guard_bind (by rw [Part.label?_eq hargument]) fun _ => ?_
    refine rel_bind (Part.rel_expression? hargument (by simp [Part.keepsNodes, hargumentKind])) ?_
    rintro matching matching' (hmatching | hmatching)
    · refine rel_bind (rel_call? hmatching) ?_
      rintro _ _ ⟨rfl, rfl, hmatchingCall⟩
      refine rel_guard_bind (Part.isNone_trailingClosure? hmatching hmatchingCall) fun _ => ?_
      rw [Part.calledName?_eq hmatching hmatchingCall]
      refine rel_bind (rel_eq _) ?_
      rintro name _ rfl
      refine rel_bind (rel_eq (Matcher.named? name)) ?_
      rintro matcher _ rfl
      refine rel_bind (rel_eq (matcher.operator? negated)) ?_
      rintro operator _ rfl
      have hoperands := Part.forall₂_arguments hmatching hmatchingCall
      exact rel_guard_bind (by rw [hoperands.length_eq, all_label? hoperands]) fun _ => rel_finish hoperands hsubject
    · -- what was replaced there is no matcher, and what has taken its place is no call
      have hleft : matching.calledName? = none := calledName?_of_callsMember hmatching.call
      have hright : call? matching' = none := by simp [call?, Part.kind, hmatching.comparison.2]
      rw [hright]
      cases hcall : call? matching with
      | none => exact .none
      | some callee =>
        obtain rfl : matching = callee := (call?_eq_some_iff.1 hcall).1
        have hread : ∀ f : Part → Option Chain, (some matching >>= f) = f matching := fun _ => rfl
        rw [hread, hleft]
        cases matching.trailingClosure?.isNone <;> exact .none
  · exact .none

end Rules.Expectation

end SwiftTidy

import SwiftTidy.Proofs.Origins
import SwiftTidy.Proofs.Seams
import SwiftTidy.Proofs.Surroundings

/-!
# Comments and conditional markers

Corrections drop what stands within a return clause, and what stands within a chain but in neither of its operands.
Notes, which are comments and conditional markers, may stand in both places, and these are the only places where they
are lost (`Linter.notes_correct`).

A chain is rewritten after the chains within it. To tell which tokens have come through, the final tree is followed
back to the first one part by part (`Rules.Carried`): a comparison goes back to the operands of a chain, and every other
node goes back to a node with as many children.
-/

namespace SwiftTidy

/-- A comment or a conditional marker. -/
def Token.isNote (token : Token) : Bool :=
  match token.kind with
  | .lineComment | .blockComment | .conditionalMarker => true
  | _ => false

/-- The notes in a row of tokens. -/
def notes (tokens : List Token) : List Token := tokens.filter Token.isNote

@[simp] lemma notes_nil : notes [] = [] := rfl

@[simp] lemma notes_append (front back : List Token) : notes (front ++ back) = notes front ++ notes back := by
  simp [notes]

lemma notes_cons (token : Token) (row : List Token) :
    notes (token :: row) = if token.isNote then token :: notes row else notes row :=
  List.filter_cons

lemma notes_eq_nil {row : List Token} (h : ∀ token ∈ row, token.isNote = false) : notes row = [] := by
  simpa [notes, List.filter_eq_nil_iff] using h

lemma isNote_of_isBlank {placed : Placed} (h : placed.isBlank = true) : placed.token.isNote = false := by
  obtain ⟨up, ⟨kind, text⟩⟩ := placed
  cases kind <;> first | rfl | cases h

lemma Part.kind_of_mem_arguments {part child : Part} (h : child ∈ part.arguments) : child.kind = .argument := by
  rw [arguments] at h
  cases hlist : part.argumentList? with
  | none => simp [hlist] at h
  | some list =>
    rw [hlist] at h
    simpa using (List.mem_filter.1 h).2

namespace Rules.Expectation

variable {tree : Tree} {path : Path} {chain : Chain} {call member subject argument matching : Part}

lemma isNote_of_mem_connectives : ∀ token ∈ connectives, token.isNote = false := by decide +kernel

/-! ## Where the operands of a chain stand -/

/-- Where the operands of the chain at a path stand: the call of `expect`, and what the matcher compares with, unless
that is a literal. -/
def operandPaths (tree : Tree) (path : Path) : List Path :=
  let call? := tree.part? path
  let subject? := (call?.bind Part.expression?).bind Part.expression?
  let matching? := (call?.bind fun call => call.arguments.head?).bind Part.expression?
  let operand? := (matching?.bind fun matching => matching.arguments.head?).bind Part.expression?
  (subject?.toList ++ operand?.toList).map Part.path

/-- What the matcher compares with, if it takes an argument. -/
def value? (matching : Part) : Option Part := matching.arguments.head?.bind Part.expression?

lemma Links.map_value? (h : Links tree path chain call member subject argument matching) :
    (value? matching).map Part.tree = chain.argument? := by
  have hoperand := h.operand
  rw [operand?] at hoperand
  cases hfirst : matching.arguments.head? with
  | none => simp_all [value?]
  | some first =>
    cases hvalue : first.expression? with
    | none => simp [hfirst, hvalue] at hoperand
    | some value => simpa [value?, hfirst, hvalue] using hoperand

lemma Links.operandPaths_eq (h : Links tree path chain call member subject argument matching) :
    operandPaths tree path = subject.path :: ((value? matching).toList.map Part.path) := by
  simp [operandPaths, h.part, h.member_eq, h.subject_eq, h.arguments_eq, h.matching_eq, value?]

/-- The way from a part down to another one, on which no call of a member is passed. -/
inductive Way (part : Part) : Part → Prop where
  | child {inner : Part} (h : inner ∈ part.children) : Way part inner
  | down {middle inner : Part} (h : Way part middle) (hmiddle : middle.tree.callsMember = false)
      (hinner : inner ∈ middle.children) : Way part inner

namespace Way

variable {part inner : Part}

lemma cons {middle : Part} (h : Way middle inner) (hmiddle : middle ∈ part.children)
    (hcalls : middle.tree.callsMember = false) : Way part inner := by
  induction h with
  | child h => exact .down (.child hmiddle) hcalls h
  | down _ hlast hinner ih => exact .down ih hlast hinner

variable (h : Way part inner) (hpart : part.InPlace tree)

include h hpart

lemma inPlace : inner.InPlace tree := by
  induction h with
  | child h => exact (hpart.child h).1
  | down _ _ hinner ih => exact (ih.child hinner).1

lemma exists_path : ∃ i r, inner.path = part.path ++ i :: r := by
  induction h with
  | child h =>
    obtain ⟨-, i, hi, -⟩ := hpart.child h
    exact ⟨i, [], hi⟩
  | down hway _ hinner ih =>
    obtain ⟨i, r, hmiddle⟩ := ih
    obtain ⟨-, j, hj, -⟩ := (hway.inPlace hpart).child hinner
    exact ⟨i, r ++ [j], by rw [hj, hmiddle]; simp⟩

/-- Between its ends there is no call of a member. -/
lemma eq_of_callsMember {p : Path} {between : Tree} (hbetween : tree.sub? p = some between)
    (hcalls : between.callsMember = true) (hp : p <+: inner.path) : p = inner.path ∨ p <+: part.path := by
  induction h with
  | child h =>
    obtain ⟨-, i, hi, -⟩ := hpart.child h
    rw [hi] at hp ⊢
    exact (List.prefix_concat_iff.1 hp)
  | @down middle inner hway hmiddle hinner ih =>
    have hplace := hway.inPlace hpart
    obtain ⟨-, i, hi, -⟩ := hplace.child hinner
    rw [hi] at hp ⊢
    rcases List.prefix_concat_iff.1 hp with rfl | hp
    · exact .inl rfl
    rcases ih hp with rfl | hp
    · rw [hplace, Option.some.injEq] at hbetween
      rw [hbetween, hcalls] at hmiddle
      exact absurd hmiddle (by simp)
    · exact .inr hp

end Way

lemma callsMember_of_kind {part : Part} {kind : Kind} (h : part.kind = kind) (hkind : kind ≠ .callExpr) :
    part.tree.callsMember = false := by
  have hne : part.tree.kind ≠ .callExpr := fun hcall => hkind (h.symm.trans hcall)
  simp [Tree.callsMember, hne]

section

variable (h : Links tree path chain call member subject argument matching)

include h

lemma Links.callsMember_matching : matching.tree.callsMember = false := by
  obtain ⟨name, hname, -⟩ := h.matcher
  obtain ⟨callee, hcallee, hname⟩ := Option.bind_eq_some_iff.1 hname
  have hkind : callee.tree.kind = .identExpr := by
    by_contra hne
    simp [Part.kind, hne] at hname
  have hhead : matching.tree.childExpressions.head? = some callee.tree := by
    rw [Part.head?_childExpressions, hcallee, Option.map_some]
  simp [Tree.callsMember, hhead, hkind]

/-- The ways to the operands of a chain. One leads through what is called, the other through the arguments. -/
lemma Links.way :
    member ∈ call.children ∧ subject ∈ member.children ∧
      ∀ value ∈ value? matching, ∃ list ∈ call.children, list.kind = .argumentList ∧ Way list value := by
  refine ⟨(Part.mem_children_of_expression? h.member_eq).1, (Part.mem_children_of_expression? h.subject_eq).1, ?_⟩
  intro value hvalue
  obtain ⟨first, hfirst, hvalue⟩ := Option.bind_eq_some_iff.1 hvalue
  have hmem : argument ∈ call.arguments := by simp [h.arguments_eq]
  obtain ⟨list, hlist, hlistKind, hargument⟩ := Part.exists_argumentList hmem
  obtain ⟨inner, hinner, hinnerKind, hfirst'⟩ := Part.exists_argumentList (List.mem_of_head? hfirst)
  refine ⟨list, hlist, hlistKind, ?_⟩
  have hmatching : Way list matching :=
    .down (.child hargument) (callsMember_of_kind (Part.kind_of_mem_arguments hmem) (by simp))
      (Part.mem_children_of_expression? h.matching_eq).1
  have hfirstWay : Way list first :=
    .down (.down hmatching h.callsMember_matching hinner) (callsMember_of_kind hinnerKind (by simp)) hfirst'
  exact .down hfirstWay (callsMember_of_kind (Part.kind_of_mem_arguments (List.mem_of_head? hfirst)) (by simp))
    (Part.mem_children_of_expression? hvalue).1

lemma Links.member_path (hshaped : tree.Shaped) : member.path = call.path ++ [0] := by
  obtain ⟨-, hcall⟩ := Part.inPlace_of_part? h.part
  have hshape := hshaped.sub? hcall
  obtain ⟨p, part⟩ := call
  obtain ⟨hnode, hkind⟩ := h.isCall
  obtain ⟨children, rfl⟩ := Tree.exists_node_of_kind hnode hkind
  obtain ⟨kind, inner, rest, rfl, hexpression⟩ := hshape.begins_expression rfl
  have hmember := h.member_eq
  simp only [Part.expression?, Part.expressions, Part.nodes, Part.children, Tree.children, List.mapIdx_cons,
    Tree.isNode, Part.kind, Tree.kind, hexpression, List.filter_cons_of_pos, List.head?_cons,
    Option.some.injEq] at hmember
  rw [← hmember]

end

/-- Where the operands of a chain stand: in the call, one behind the other, and with no other chain around them. -/
lemma exists_operandPaths (hshaped : tree.Shaped) (h : chain? tree path = some chain) :
    (operandPaths tree path).Pairwise Path.Precedes ∧
      ∀ o ∈ operandPaths tree path, (∃ i r, o = path ++ i :: r) ∧ (∃ part, tree.sub? o = some part) ∧
        ∀ p between, tree.sub? p = some between → between.callsMember = true → p <+: o → p = o ∨ p <+: path := by
  obtain ⟨call, member, subject, argument, matching, links⟩ := chain?_eq_some_iff.1 h
  obtain ⟨rfl, hcall⟩ := Part.inPlace_of_part? links.part
  obtain ⟨hmember, hsubject, hvalue⟩ := links.way
  have hmemberCalls : member.tree.callsMember = false := callsMember_of_kind links.member_kind (by simp)
  have hways : ∀ {part inner : Part}, part ∈ call.children → part.tree.callsMember = false → Way part inner →
      (∃ i r, inner.path = call.path ++ i :: r) ∧ (∃ tree', tree.sub? inner.path = some tree') ∧
        ∀ p between, tree.sub? p = some between → between.callsMember = true → p <+: inner.path →
          p = inner.path ∨ p <+: call.path := by
    intro part inner hpart hcalls hway
    have hwhole := hway.cons hpart hcalls
    exact ⟨hwhole.exists_path hcall, ⟨_, hwhole.inPlace hcall⟩, fun p between => hwhole.eq_of_callsMember hcall⟩
  rw [links.operandPaths_eq]
  constructor
  · rw [List.pairwise_cons]
    refine ⟨?_, by cases value? matching <;> simp⟩
    simp only [List.mem_map, Option.mem_toList]
    rintro o ⟨value, hmem, rfl⟩
    obtain ⟨list, hlist, hlistKind, hway⟩ := hvalue value hmem
    obtain ⟨hmemberPlace, -, -, hmemberChild⟩ := hcall.child hmember
    obtain ⟨hlistPlace, k, hk, hlistChild⟩ := hcall.child hlist
    obtain ⟨-, j, hj, -⟩ := hmemberPlace.child hsubject
    obtain ⟨l, r, hl⟩ := hway.exists_path hlistPlace
    -- the list of arguments is not what is called
    have hne : k ≠ 0 := by
      rintro rfl
      have heq : list.path = member.path := hk.trans (links.member_path hshaped).symm
      have htree : list.tree = member.tree := by
        have hsub : tree.sub? list.path = some list.tree := hlistPlace
        rw [heq] at hsub
        exact Option.some.inj (hsub.symm.trans hmemberPlace)
      have hkinds : list.kind = member.kind := congrArg Tree.kind htree
      rw [hlistKind, links.member_kind] at hkinds
      simp at hkinds
    rw [hj, hl, hk, links.member_path hshaped, List.append_assoc, List.append_assoc, Path.append_precedes_append]
    exact Or.inl (by omega)
  · simp only [List.mem_cons, List.mem_map, Option.mem_toList]
    rintro o (rfl | ⟨value, hmem, rfl⟩)
    · exact hways hmember hmemberCalls (.child hsubject)
    · obtain ⟨list, hlist, hlistKind, hway⟩ := hvalue value hmem
      exact hways hlist (callsMember_of_kind hlistKind (by simp)) hway

end Rules.Expectation

namespace Rules

open Expectation SwiftTidy.Tree

variable {first : Tree} {done : List Path}

/-! ## Following a tree back -/

/-- What a tree has become of a part of the first one, where chains at some places were rewritten. In the place of a
chain there is a comparison of what its operands have become. -/
inductive Carried (first : Tree) (done : List Path) : Path → Tree → Prop where
  | leaf {q : Path} {token : Token} (h : first.sub? q = some (.leaf token)) : Carried first done q (.leaf token)
  | node {q : Path} {kind : Kind} {children laters : List Tree} (h : first.sub? q = some (.node kind children))
      (hdone : q ∉ done) (hlength : laters.length = children.length)
      (hlaters : ∀ (i : Nat) later, laters[i]? = some later → Carried first done (q ++ [i]) later) :
      Carried first done q (.node kind laters)
  | comparison {q : Path} {chain : Chain} {right : Tree} (hdone : q ∈ done) (hright : chain.right? = some right)
      (hsame : ∃ old, chain? first q = some old ∧ chain.matcher = old.matcher ∧ chain.operator = old.operator)
      (hlength : (chain.subject :: chain.argument?.toList).length = (operandPaths first q).length)
      (hoperands : ∀ (i : Nat) p operand, (operandPaths first q)[i]? = some p →
        (chain.subject :: chain.argument?.toList)[i]? = some operand → Carried first done p operand)
      (hnotes : notes (chain.comparison right).leaves = notes (leavesOf (chain.subject :: chain.argument?.toList))) :
      Carried first done q (chain.comparison right)

lemma Carried.refl (part : Tree) {q : Path} (h : first.sub? q = some part) : Carried first [] q part := by
  cases part with
  | leaf token => exact .leaf h
  | node kind children =>
    refine .node h (by simp) rfl fun i child hchild => ?_
    have hsize := sizeOf_lt_of_mem kind (List.mem_of_getElem? hchild)
    refine Carried.refl child ?_
    rw [sub?_concat, h]
    exact hchild
termination_by sizeOf part

namespace Carried

variable {q path : Path} {later : Tree}

/-- A rewrite elsewhere makes no difference. -/
lemma cons (h : Carried first done q later) (hshaped : first.Shaped)
    (hfound : ∀ p ∈ done, ∃ chain, chain? first p = some chain) (hapart : ¬ q <+: path) :
    Carried first (path :: done) q later := by
  induction h with
  | leaf h => exact .leaf h
  | @node q kind children laters h hdone hlength _ ih =>
    refine .node h ?_ hlength fun i later hlater => ih i later hlater fun hle => hapart ?_
    · rw [List.mem_cons, not_or]
      exact ⟨fun heq => hapart (heq ▸ List.prefix_rfl), hdone⟩
    · exact (List.prefix_append q [i]).trans hle
  | @comparison q chain right hdone hright hsame hlength _ hnotes ih =>
    refine .comparison (List.mem_cons_of_mem _ hdone) hright hsame hlength ?_ hnotes
    intro i p operand hp hoperand
    refine ih i p operand hp hoperand fun hle => hapart ?_
    obtain ⟨chain, hchain⟩ := hfound q hdone
    obtain ⟨⟨j, r, rfl⟩, -⟩ := (exists_operandPaths hshaped hchain).2 p (List.mem_of_getElem? hp)
    exact (List.prefix_append q _).trans hle

variable {part : Tree} {r : Path}

section

variable (h : Carried first done q later)

include h

lemma sub? (hpart : later.sub? r = some part) (hdone : ∀ p ∈ done, p <+: q ++ r → p = q ++ r) :
    Carried first done (q ++ r) part := by
  induction r generalizing q later with
  | nil =>
    obtain rfl : later = part := by simpa using hpart
    simpa using h
  | cons i r ih =>
    obtain ⟨kind, laters, child, rfl, hchild, hpart⟩ := exists_child_of_sub?_cons hpart
    cases h with
    | node h hq hlength hlaters =>
      have hinner := ih (hlaters i child hchild) hpart (by simpa using hdone)
      simpa using hinner
    | comparison hq => simpa using hdone q hq (List.prefix_append _ _)

/-- A rewrite of a part. -/
lemma replaceAt (hshaped : first.Shaped) (hfound : ∀ p ∈ done, ∃ chain, chain? first p = some chain) {new : Tree}
    (hpart : later.sub? r = some part) (hdone : ∀ p ∈ done, ¬ p <+: q ++ r)
    (hnew : Carried first ((q ++ r) :: done) (q ++ r) new) :
    Carried first ((q ++ r) :: done) q (later.replaceAt r new) := by
  induction r generalizing q later with
  | nil => simpa [Tree.replaceAt] using hnew
  | cons i r ih =>
    obtain ⟨kind, laters, child, rfl, hchild, hpart⟩ := exists_child_of_sub?_cons hpart
    cases h with
    | node h hq hlength hlaters =>
      rw [Tree.replaceAt]
      refine .node h ?_ (by simpa using hlength) fun j other hother => ?_
      · rw [List.mem_cons, not_or]
        exact ⟨by simp, hq⟩
      · rw [List.getElem?_modify] at hother
        obtain ⟨old, hold, rfl⟩ := Option.map_eq_some_iff.1 hother
        by_cases hij : i = j
        · subst hij
          obtain rfl : child = old := Option.some.inj (hchild.symm.trans hold)
          have hinner := ih (hlaters i child hchild) hpart (by simpa using hdone) (by simpa using hnew)
          simpa using hinner
        · rw [if_neg hij]
          refine (hlaters j old hold).cons hshaped hfound fun hle => hij ?_
          simpa [List.prefix_append_right_inj, List.cons_prefix_cons, eq_comm] using hle
    | comparison hq => exact absurd (List.prefix_append _ _) (hdone q hq)

lemma seen (hfound : ∀ p ∈ done, ∃ chain, chain? first p = some chain) (hpart : first.sub? q = some part) :
    later.isNode = part.isNode ∧ ∀ p : Kind → Bool, p .binaryExpr = p .callExpr → p later.kind = p part.kind := by
  cases h with
  | leaf h | node h =>
    obtain rfl := Option.some.inj (h.symm.trans hpart)
    exact ⟨rfl, fun _ _ => rfl⟩
  | comparison hdone =>
    obtain ⟨chain, hchain⟩ := hfound q hdone
    have hcalls := callsMember_of_chain? hchain hpart
    simp only [callsMember, Bool.and_eq_true, beq_iff_eq] at hcalls
    exact ⟨hcalls.1.1.symm, fun p hp => by rw [hcalls.1.2, ← hp]; rfl⟩

lemma children (hpart : first.sub? q = some part) (hdone : q ∉ done) :
    later.children.length = part.children.length ∧
      ∀ (i : Nat) child, later.children[i]? = some child → Carried first done (q ++ [i]) child := by
  cases h with
  | leaf h =>
    obtain rfl := Option.some.inj (h.symm.trans hpart)
    exact ⟨rfl, by simp [Tree.children]⟩
  | node h _ hlength hlaters =>
    obtain rfl := Option.some.inj (h.symm.trans hpart)
    exact ⟨hlength, hlaters⟩
  | comparison hq => exact absurd hq hdone

/-- What is not rewritten itself echoes what it was. -/
lemma echo (hfound : ∀ p ∈ done, ∃ chain, chain? first p = some chain) (hpart : first.sub? q = some part)
    (hdone : q ∉ done) : part.Echo later := by
  induction h generalizing part with
  | leaf h =>
    obtain rfl := Option.some.inj (h.symm.trans hpart)
    exact echo_leaf.2 rfl
  | @node q kind children laters h _ hlength hlaters ih =>
    obtain rfl := Option.some.inj (h.symm.trans hpart)
    refine echo_node.2 ⟨laters, rfl, echoOf_of_getElem? hlength fun i child later hchild hlater => ?_⟩
    have hsub : first.sub? (q ++ [i]) = some child := by
      rw [sub?_concat, h]
      exact hchild
    by_cases hmem : q ++ [i] ∈ done
    · obtain ⟨chain, hchain⟩ := hfound _ hmem
      obtain ⟨call, member, subject, argument, matching, links⟩ := chain?_eq_some_iff.1 hchain
      have hloose := links.loose
      rw [ownerKind?_concat, h] at hloose
      refine .inr ⟨by simpa [Tree.kind] using hloose, callsMember_of_chain? hchain hsub, ?_⟩
      generalize hplace : q ++ [i] = place at hmem hsub
      have hcarried := hplace ▸ hlaters i later hlater
      cases hcarried with
      | leaf h =>
        obtain rfl := Option.some.inj (h.symm.trans hsub)
        have hcalls := callsMember_of_chain? hchain (hplace ▸ hsub)
        rw [callsMember, Bool.and_eq_true, Bool.and_eq_true] at hcalls
        cases hcalls.1.1
      | node _ hnot => exact absurd hmem hnot
      | comparison => exact ⟨rfl, rfl⟩
    · exact .inl (ih i later hlater hsub hmem)
  | comparison hq => exact absurd hq hdone

end

lemma ownerKind?_eq (h : Carried first done [] later) (hpart : first.sub? path = some part)
    (hlater : later.sub? path ≠ none) (hdone : ∀ p ∈ done, ¬ p <+: path) :
    later.ownerKind? path = first.ownerKind? path := by
  rcases List.eq_nil_or_concat path with rfl | ⟨r, i, rfl⟩
  · rfl
  rw [List.concat_eq_append] at hpart hlater hdone ⊢
  have hapart : ∀ p ∈ done, ¬ p <+: r := fun p hp hle => hdone p hp (hle.trans (List.prefix_append r [i]))
  rw [ownerKind?_concat, ownerKind?_concat]
  rw [sub?_concat] at hpart
  cases howner : later.sub? r with
  | none => simp [sub?_concat, howner] at hlater
  | some owner =>
    have hcarried : Carried first done r owner := by
      simpa using h.sub? howner fun p hp hle => absurd (by simpa using hle) (hapart p hp)
    cases hcarried with
    | leaf h | node h => simp [h, Tree.kind]
    | comparison hr => exact absurd List.prefix_rfl (hapart _ hr)

end Carried

/-! ## Operands that are found again -/

/-- A part is what has become of one of the first tree, and stands in its place. -/
structure Follows (first : Tree) (done : List Path) (part later : Part) : Prop where
  path : later.path = part.path
  inPlace : part.InPlace first
  carried : Carried first done part.path later.tree

namespace Follows

variable {part later : Part}

lemma children (h : Follows first done part later) (hdone : part.path ∉ done) :
    List.Forall₂ (Follows first done) part.children later.children := by
  obtain ⟨hlength, hchildren⟩ := h.carried.children h.inPlace hdone
  refine List.forall₂_iff_get.2 ⟨by simp [Part.children, hlength], fun i hi hi' => ?_⟩
  have hpart : part.children.get ⟨i, hi⟩ ∈ part.children := List.get_mem _ _
  refine ⟨?_, (h.inPlace.child hpart).1, ?_⟩
  · simp [Part.children, h.path]
  · simpa [Part.children] using hchildren i _ (List.getElem?_eq_getElem (by simpa [Part.children] using hi'))

variable (h : Follows first done part later) (hfound : ∀ p ∈ done, ∃ chain, chain? first p = some chain)

include h hfound

lemma not_mem_of_callsMember (hcalls : part.tree.callsMember = false) : part.path ∉ done := by
  intro hdone
  obtain ⟨chain, hchain⟩ := hfound _ hdone
  simp [callsMember_of_chain? hchain h.inPlace] at hcalls

variable (hdone : part.path ∉ done)

include hdone

lemma nodes : List.Forall₂ (Follows first done) part.nodes later.nodes :=
  List.rel_filter (fun _ _ hab => by simp [(hab.carried.seen hfound hab.inPlace).1]) (h.children hdone)

lemma expression? : Option.Rel (Follows first done) part.expression? later.expression? :=
  rel_head? (List.rel_filter (fun a b hab => by
    have hseen := (hab.carried.seen hfound hab.inPlace).2 Kind.isExpression rfl
    simp [Part.kind, hseen]) (h.nodes hfound hdone))

lemma argumentList? : Option.Rel (fun a b => Follows first done a b ∧ a.kind = .argumentList) part.argumentList?
    later.argumentList? := by
  refine rel_mono (rel_find? (h.nodes hfound hdone) fun a b hab => ?_) fun a b hab => ⟨hab.1, by simpa using hab.2⟩
  exact (hab.carried.seen hfound hab.inPlace).2 (· == .argumentList) rfl

lemma arguments : List.Forall₂ (Follows first done) part.arguments later.arguments := by
  rw [Part.arguments, Part.arguments]
  rcases rel_cases (h.argumentList? hfound hdone) with ⟨ha, hb⟩ | ⟨list, list', ha, hb, hlist, hkind⟩
  · rw [ha, hb]
    exact .nil
  · rw [ha, hb]
    refine List.rel_filter (fun a b hab => ?_)
      (hlist.nodes hfound (hlist.not_mem_of_callsMember hfound (callsMember_of_kind hkind (by simp))))
    have hseen := (hab.carried.seen hfound hab.inPlace).2 (· == .argument) rfl
    simp only [Part.kind, hseen]

end Follows

lemma exists_of_rel {α β : Type} {R : α → β → Prop} {a : α} {y : Option β} (h : Option.Rel R (some a) y) :
    ∃ b, y = some b ∧ R a b := by
  cases h with
  | some hab => exact ⟨_, rfl, hab⟩

variable {call member subject argument matching : Part} {chain : Chain} {chains parts : List Path} {later tree : Tree}
  {path q : Path}

/-- The operands of a chain that is still there have kept their places. -/
lemma Carried.operandPaths_eq (h : Carried first done [] later)
    (hfound : ∀ p ∈ done, ∃ chain, chain? first p = some chain) (hchain : chain? first path = some chain) {part : Tree}
    (hpart : later.sub? path = some part) (hdone : ∀ p ∈ done, ¬ p <+: path) :
    operandPaths later path = operandPaths first path := by
  obtain ⟨call, member, subject, argument, matching, links⟩ := chain?_eq_some_iff.1 hchain
  obtain ⟨rfl, hplace⟩ := Part.inPlace_of_part? links.part
  have hcall : Follows first done call ⟨call.path, part⟩ :=
    ⟨rfl, hplace, by simpa using h.sub? hpart fun p hp hle => absurd (by simpa using hle) (hdone p hp)⟩
  have hcallDone : call.path ∉ done := fun hmem => hdone _ hmem List.prefix_rfl
  have hpartEq : later.part? call.path = some ⟨call.path, part⟩ := by simp [part?, hpart]
  -- the call of `expect`
  have hmemberRel := hcall.expression? hfound hcallDone
  rw [links.member_eq] at hmemberRel
  obtain ⟨member', hmember', hmember⟩ := exists_of_rel hmemberRel
  have hsubjectRel := hmember.expression? hfound
    (hmember.not_mem_of_callsMember hfound (callsMember_of_kind links.member_kind (by simp)))
  rw [links.subject_eq] at hsubjectRel
  obtain ⟨subject', hsubject', hsubject⟩ := exists_of_rel hsubjectRel
  -- the matcher
  have hargumentRel := rel_head? (hcall.arguments hfound hcallDone)
  rw [links.arguments_eq] at hargumentRel
  obtain ⟨argument', hargument', hargument⟩ := exists_of_rel hargumentRel
  have hmem : argument ∈ call.arguments := by simp [links.arguments_eq]
  have hmatchingRel := hargument.expression? hfound (hargument.not_mem_of_callsMember hfound
    (callsMember_of_kind (Part.kind_of_mem_arguments hmem) (by simp)))
  rw [links.matching_eq] at hmatchingRel
  obtain ⟨matching', hmatching', hmatching⟩ := exists_of_rel hmatchingRel
  -- what it compares with
  have hvalue : ((value? matching').map Part.path) = (value? matching).map Part.path := by
    have harguments := hmatching.arguments hfound (hmatching.not_mem_of_callsMember hfound links.callsMember_matching)
    rcases rel_cases (rel_head? harguments) with ⟨ha, hb⟩ | ⟨first, first', ha, hb, hfirst⟩
    · simp [value?, ha, hb]
    · have hkind := Part.kind_of_mem_arguments (List.mem_of_head? ha)
      have hvalueRel := hfirst.expression? hfound
        (hfirst.not_mem_of_callsMember hfound (callsMember_of_kind hkind (by simp)))
      rcases rel_cases hvalueRel with ⟨hc, hd⟩ | ⟨value, value', hc, hd, hvalue⟩
      · simp [value?, ha, hb, hc, hd]
      · simp [value?, ha, hb, hc, hd, hvalue.path]
  have hlists : ((value? matching').toList.map Part.path) = (value? matching).toList.map Part.path := by
    rw [← Option.toList_map, ← Option.toList_map, hvalue]
  rw [links.operandPaths_eq, ← hlists, ← hsubject.path]
  simp [operandPaths, hpartEq, hmember', hsubject', hargument', hmatching', value?]

/-- What stands where the operands are said to stand. -/
lemma Expectation.Links.sub?_of_operandPaths (h : Links tree path chain call member subject argument matching) {i : Nat}
    {p : Path} {operand : Tree} (hp : (operandPaths tree path)[i]? = some p)
    (hoperand : (chain.subject :: chain.argument?.toList)[i]? = some operand) : tree.sub? p = some operand := by
  obtain ⟨-, hcall⟩ := Part.inPlace_of_part? h.part
  obtain ⟨hmember, hsubject, hvalue⟩ := h.way
  rw [h.operandPaths_eq] at hp
  cases i with
  | zero =>
    obtain rfl : subject.path = p := by simpa using hp
    obtain rfl : chain.subject = operand := by simpa using hoperand
    rw [h.subject_tree]
    exact ((hcall.child hmember).1.child hsubject).1
  | succ i =>
    rw [List.getElem?_cons_succ] at hp hoperand
    rw [← h.map_value?] at hoperand
    cases hmem : value? matching with
    | none => simp [hmem] at hp
    | some value =>
      obtain ⟨list, hlist, -, hway⟩ := hvalue value hmem
      cases i with
      | succ i => simp [hmem] at hp
      | zero =>
        obtain rfl : value.path = p := by simpa [hmem] using hp
        obtain rfl : value.tree = operand := by simpa [hmem] using hoperand
        exact hway.inPlace (hcall.child hlist).1

/-- A comparison holds the notes of the operands. -/
lemma notes_comparison {right : Tree} (h : Links tree path chain call member subject argument matching)
    (hright : chain.right? = some right) :
    notes (chain.comparison right).leaves = notes (leavesOf (chain.subject :: chain.argument?.toList)) := by
  have hright' : notes right.leaves = notes (leavesOf chain.argument?.toList) := by
    rw [Chain.right?] at hright
    split at hright
    next literal hliteral =>
      -- a matcher with a literal takes no argument
      have harguments : matching.arguments = [] := by
        rw [← List.length_eq_zero_iff, h.matching_arguments, Matcher.arity, hliteral]
        rfl
      have hnone : chain.argument? = none := by rw [← h.map_value?, value?, harguments]; rfl
      have hnote : ∀ matcher ∈ Matcher.all, ∀ literal ∈ matcher.literal?, literal.isNote = false := by decide
      obtain rfl := Option.some.inj hright
      simp [hnone, notes_cons, hnote _ h.matcher_mem _ hliteral]
    next operand _ hoperand =>
      rw [hoperand]
      split at hright
      · obtain rfl := Option.some.inj hright
        simp [notes_cons, Token.isNote]
      · obtain rfl := Option.some.inj hright
        simp
    next => simp at hright
  have hoperator : notes (tokensOf chain.operator) = [] :=
    notes_eq_nil fun token htoken => isNote_of_mem_connectives token (h.operator_mem token htoken)
  simp [leaves_comparison, hright', hoperator, notes_cons, Token.isNote]

/-- A run of rewrites carries everything along. -/
lemma RewritesAlong.carried (h : RewritesAlong first done later) (hshaped : first.Shaped)
    (hfound : ∀ p ∈ done, ∃ chain, chain? first p = some chain) : Carried first done [] later := by
  induction h with
  | refl => exact Carried.refl first (by simp)
  | @tail done path later last _ houter hrewrites ih =>
    have hfound' : ∀ p ∈ done, ∃ chain, chain? first p = some chain := fun p hp => hfound p (by simp [hp])
    have hcarried := ih hfound'
    obtain ⟨chain, right, -, hchain, hright, rfl⟩ := hrewrites
    obtain ⟨part, hpart⟩ := exists_part_of_chain? hchain
    obtain ⟨chain₀, hchain₀⟩ := hfound path (by simp)
    obtain ⟨-, hpaths⟩ := exists_operandPaths hshaped hchain₀
    obtain ⟨call, member, subject, argument, matching, links⟩ := chain?_eq_some_iff.1 hchain
    have heq := hcarried.operandPaths_eq hfound' hchain₀ hpart houter
    -- what stands at an operand has come through the steps so far
    have hoperand : ∀ o ∈ operandPaths first path, ∀ operand, later.sub? o = some operand →
        Carried first (path :: done) o operand := by
      intro o ho operand hsub
      obtain ⟨⟨i, r, rfl⟩, -, hbetween⟩ := hpaths o ho
      have hinner := hcarried.sub? hsub fun p hp hle => by
        obtain ⟨chain', hchain'⟩ := hfound' p hp
        obtain ⟨part', hpart'⟩ := exists_part_of_chain? hchain'
        rcases hbetween p part' hpart' (callsMember_of_chain? hchain' hpart') hle with heq | hle
        · exact heq
        · exact absurd hle (houter p hp)
      refine Carried.cons (by simpa using hinner) hshaped hfound' fun hle => ?_
      simpa using hle.length_le
    have hlength : (chain.subject :: chain.argument?.toList).length = (operandPaths first path).length := by
      rw [← heq, links.operandPaths_eq, ← links.map_value?]
      cases value? matching <;> simp
    have hsame : ∃ old, chain? first path = some old ∧ chain.matcher = old.matcher ∧ chain.operator = old.operator := by
      obtain ⟨part₀, hpart₀⟩ := exists_part_of_chain? hchain₀
      have hpath : path ∉ done := fun hmem => houter path hmem List.prefix_rfl
      have hinner : Carried first done path part := by
        simpa using hcarried.sub? hpart fun p hp hle => absurd (by simpa using hle) (houter p hp)
      have hrel := rel_chain? hpart₀ hpart (hinner.echo hfound' hpart₀ hpath)
        (hcarried.ownerKind?_eq hpart₀ (by simp [hpart]) houter) (hshaped.sub? hpart₀)
      rw [hchain₀, hchain] at hrel
      cases hrel with
      | some hechoes => exact ⟨chain₀, hchain₀, hechoes.matcher, hechoes.operator⟩
    have hnew : Carried first (path :: done) path (chain.comparison right) := by
      refine .comparison (by simp) hright hsame hlength ?_ (notes_comparison links hright)
      intro i p operand hp hsub
      exact hoperand p (List.mem_of_getElem? hp) operand (links.sub?_of_operandPaths (heq ▸ hp) hsub)
    simpa using hcarried.replaceAt hshaped hfound' hpart (by simpa using houter) (by simpa using hnew)

/-! ## What comes through -/

/-- Whether a place is within one of the given chains, but in neither of its operands. -/
def outsideOperands (tree : Tree) (chains : List Path) (q : Path) : Bool :=
  chains.any fun p => p.isPrefixOf q && (operandPaths tree p).all fun o => !o.isPrefixOf q

lemma outsideOperands_eq_false_iff :
    outsideOperands tree chains q = false ↔
      ∀ p ∈ chains, p <+: q → ∃ o ∈ operandPaths tree p, o <+: q := by
  simp [outsideOperands, List.isPrefixOf_iff_prefix]

/-- The tokens of a part that come through when the given chains are rewritten. -/
def sparedAt (tree : Tree) (chains : List Path) (q : Path) : List Placed :=
  tree.placedTokens.filter fun placed => q.isPrefixOf placed.path && !outsideOperands tree chains placed.path

lemma mem_sparedAt {placed : Placed} :
    placed ∈ sparedAt tree chains q ↔
      placed ∈ tree.placedTokens ∧ q <+: placed.path ∧ outsideOperands tree chains placed.path = false := by
  simp [sparedAt, List.isPrefixOf_iff_prefix]

/-- Tokens come through in parts that stand one behind the other if they come through in one of these. -/
lemma sparedAt_eq_flatMap (hsorted : parts.Pairwise Path.Precedes) (hbelow : ∀ p ∈ parts, q <+: p)
    (hcover : ∀ placed ∈ sparedAt tree chains q, ∃ p ∈ parts, p <+: placed.path) :
    sparedAt tree chains q = parts.flatMap (sparedAt tree chains) := by
  have hparts : (parts.flatMap (sparedAt tree chains)).Pairwise fun a b => Path.Precedes a.path b.path := by
    rw [List.pairwise_flatMap]
    refine ⟨fun p _ => (pairwise_placedTokens tree).filter _, hsorted.imp fun {p p'} hpp a ha b hb => ?_⟩
    obtain ⟨r, hr⟩ := (mem_sparedAt.1 ha).2.1
    obtain ⟨r', hr'⟩ := (mem_sparedAt.1 hb).2.1
    rw [← hr, ← hr']
    exact hpp.append r r'
  refine eq_of_mem_iff_of_precedes ((pairwise_placedTokens tree).filter _) hparts fun placed => ?_
  rw [List.mem_flatMap]
  constructor
  · intro hplaced
    obtain ⟨p, hp, hle⟩ := hcover placed hplaced
    obtain ⟨hmem, -, hspared⟩ := mem_sparedAt.1 hplaced
    exact ⟨p, hp, mem_sparedAt.2 ⟨hmem, hle, hspared⟩⟩
  · rintro ⟨p, hp, hplaced⟩
    obtain ⟨hmem, hle, hspared⟩ := mem_sparedAt.1 hplaced
    exact mem_sparedAt.2 ⟨hmem, (hbelow p hp).trans hle, hspared⟩

/-- Trees in a row have the notes of the parts that they come from. -/
lemma notes_leavesOf {spared : Path → List Placed} {laters : List Tree} (hlength : laters.length = parts.length)
    (h : ∀ (i : Nat) p later, parts[i]? = some p → laters[i]? = some later →
      notes later.leaves = notes ((spared p).map Placed.token)) :
    notes (leavesOf laters) = notes ((parts.flatMap spared).map Placed.token) := by
  induction parts generalizing laters with
  | nil =>
    obtain rfl : laters = [] := by simpa using hlength
    rfl
  | cons p parts ih =>
    cases laters with
    | nil => simp at hlength
    | cons later laters =>
      have hfirst := h 0 p later rfl rfl
      have hrest := ih (by simpa using hlength) fun i p later hp hlater => h (i + 1) p later (by simpa) (by simpa)
      simp [hfirst, hrest]

/-- A tree that everything was carried along to has the notes that come through. -/
lemma Carried.notes_eq (h : Carried first done q later) (hshaped : first.Shaped)
    (hfound : ∀ p ∈ done, ∃ chain, chain? first p = some chain)
    (hlive : ∀ p ∈ done, p <+: q → p = q ∨ ∃ o ∈ operandPaths first p, o <+: q) :
    notes later.leaves = notes ((sparedAt first done q).map Placed.token) := by
  induction h with
  | @leaf q token h =>
    have hspared : sparedAt first done q = [⟨q.reverse, token⟩] := by
      refine eq_of_mem_iff_of_precedes ((pairwise_placedTokens first).filter _) (by simp) fun placed => ?_
      have hmem := mem_placedTokens_of_sub? h
      rw [mem_sparedAt, List.mem_singleton]
      constructor
      · rintro ⟨hplaced, hle, -⟩
        exact (eq_of_isPrefix hmem hplaced (by simpa using hle)).symm
      · rintro rfl
        refine ⟨hmem, by simp, outsideOperands_eq_false_iff.2 fun p hp hle => ?_⟩
        rw [Placed.path_mk] at hle ⊢
        refine (hlive p hp hle).resolve_left ?_
        rintro rfl
        obtain ⟨chain, hchain⟩ := hfound p hp
        simpa [callsMember, isNode] using callsMember_of_chain? hchain h
    rw [hspared]
    rfl
  | @node q kind children laters h hdone hlength _ ih =>
    have hspared : sparedAt first done q =
        ((List.range children.length).map fun i => q ++ [i]).flatMap (sparedAt first done) := by
      refine sparedAt_eq_flatMap ?_ (by simp) fun placed hplaced => ?_
      · rw [List.pairwise_map]
        exact List.pairwise_lt_range.imp fun hij => by simpa using hij
      · obtain ⟨hmem, ⟨r, hr⟩, -⟩ := mem_sparedAt.1 hplaced
        have hsub := sub?_of_mem_placedTokens hmem
        rw [← hr, sub?_append, h, Option.bind_some] at hsub
        cases r with
        | nil => simp at hsub
        | cons i r =>
          rw [sub?_node_cons, Option.bind_eq_some_iff] at hsub
          obtain ⟨child, hchild, -⟩ := hsub
          refine ⟨q ++ [i], List.mem_map.2 ⟨i, ?_, rfl⟩, ⟨r, by simpa using hr⟩⟩
          exact List.mem_range.2 (List.getElem?_eq_some_iff.1 hchild).1
    rw [hspared, leaves_node]
    refine notes_leavesOf (by simp [hlength]) fun i p later hp hlater => ?_
    obtain ⟨i', hi', rfl⟩ := Option.map_eq_some_iff.1 (List.getElem?_map ▸ hp)
    obtain rfl : i = i' := by
      have := (List.getElem?_eq_some_iff.1 hi').2
      simpa using this
    refine ih i later hlater fun p hchain hle => ?_
    rcases List.prefix_concat_iff.1 hle with rfl | hle
    · exact .inl rfl
    · rcases hlive p hchain hle with rfl | ⟨o, ho, hle⟩
      · exact absurd hchain hdone
      · exact .inr ⟨o, ho, hle.trans (List.prefix_append q [i])⟩
  | @comparison q chain right hdone _ _ hlength _ hnotes ih =>
    obtain ⟨chain, hchain⟩ := hfound q hdone
    obtain ⟨hsorted, hpaths⟩ := exists_operandPaths hshaped hchain
    have hspared : sparedAt first done q = (operandPaths first q).flatMap (sparedAt first done) := by
      refine sparedAt_eq_flatMap hsorted (fun o ho => ?_) fun placed hplaced => ?_
      · obtain ⟨⟨i, r, rfl⟩, -⟩ := hpaths o ho
        exact List.prefix_append _ _
      · obtain ⟨-, hle, hspared⟩ := mem_sparedAt.1 hplaced
        exact outsideOperands_eq_false_iff.1 hspared q hdone hle
    rw [hspared, hnotes]
    refine notes_leavesOf hlength fun i o operand ho hoperand => ih i o operand ho hoperand fun p hp hle => ?_
    obtain ⟨⟨j, r, rfl⟩, -, hbetween⟩ := hpaths o (List.mem_of_getElem? ho)
    obtain ⟨chain', hchain'⟩ := hfound p hp
    obtain ⟨part', hpart'⟩ := exists_part_of_chain? hchain'
    rcases hbetween p part' hpart' (callsMember_of_chain? hchain' hpart') hle with heq | hle
    · exact .inl heq
    · rcases hlive p hp hle with rfl | ⟨o', ho', hle'⟩
      · exact .inr ⟨_, List.mem_of_getElem? ho, List.prefix_rfl⟩
      · exact .inr ⟨o', ho', hle'.trans (List.prefix_append _ _)⟩

/-- A pass that rewrites chains loses the notes that are in a chain but in neither of its operands. -/
lemma notes_correct_expectation (source : Source) (hshaped : source.tree.Shaped)
    (hroot : source.tree.kind ≠ .callExpr) (regions : List Region) :
    notes (expectation.correct source regions).source.tree.leaves =
      notes ((source.tree.placedTokens.filter fun placed =>
        !outsideOperands source.tree (expectation.sitePaths source.tree regions) placed.path).map Placed.token) := by
  obtain ⟨done, pass, hdone, h, hcorrect⟩ := rewritten_correct source hshaped hroot regions
  have hcarried := h.steps.carried hshaped h.found
  have hlive : ∀ p ∈ done, p <+: [] → p = [] ∨ ∃ o ∈ operandPaths source.tree p, o <+: [] :=
    fun p _ hle => .inl (List.prefix_nil.1 hle)
  have hchains : ∀ q, outsideOperands source.tree done q =
      outsideOperands source.tree (expectation.sitePaths source.tree regions) q := by
    intro q
    rw [Bool.eq_iff_iff, outsideOperands, outsideOperands, List.any_eq_true, List.any_eq_true]
    simp only [hdone]
  rw [hcorrect, hcarried.notes_eq hshaped h.found hlive, sparedAt]
  simp [hchains]

/-- A pass that takes out return clauses loses the notes in these. -/
lemma notes_correct_voidReturn (closures : Bool) (source : Source) (regions : List Region) :
    notes ((voidReturn closures).correct source regions).source.tree.leaves =
      notes ((source.tree.tokensOutside ((voidReturn closures).sitePaths source.tree regions)).map Placed.token) := by
  obtain ⟨done, pass, hdone, h, hcorrect⟩ := cleared_correct closures source regions
  obtain ⟨blanks, hblanks, hleaves⟩ := h.exists_blanks
  rw [hcorrect, hleaves, ← tokensOutside_congr hdone, notes, notes, List.filter_map, List.filter_map,
    List.filter_filter]
  congr 1
  refine List.filter_congr fun placed _ => ?_
  by_cases hblank : placed ∈ blanks
  · simp [hblank, isNote_of_isBlank (hblanks placed hblank).1]
  · simp [hblank]

end Rules

namespace Linter

open Rules

/-- The linter of both rules loses notes in two places only: those within a return clause that is taken out, and then
those within a chain that is rewritten but in neither of its operands. All others stay, in their order. -/
theorem notes_correct (text : String) :
    let source := Source.ofText text
    let regions := (Regions.resolve source).forRule (voidReturn true).id
    let cleared := ((voidReturn true).correct source regions).source
    let regions' := (Regions.resolve cleared).forRule expectation.id
    notes cleared.tree.leaves =
      notes ((source.tree.tokensOutside ((voidReturn true).sitePaths source.tree regions)).map Placed.token) ∧
    notes (builtin.correct source).source.tree.leaves =
      notes ((cleared.tree.placedTokens.filter fun placed =>
        !outsideOperands cleared.tree (expectation.sitePaths cleared.tree regions') placed.path).map Placed.token) := by
  intro source regions cleared regions'
  have hdescends : Descends (tokensOf text) cleared.tree := (descends_parse text).correct (.inr ⟨true, rfl⟩) regions
  refine ⟨notes_correct_voidReturn true source regions, ?_⟩
  exact notes_correct_expectation cleared hdescends.shaped (by simp [hdescends.root]) regions'

/-- A comment behind the arrow of a return clause is lost. -/
theorem notes_correct_arrow :
    let source := Source.ofText "func a() -> /* c */ Void {}\n"
    notes (builtin.correct source).source.tree.leaves ≠ notes source.tree.leaves := by
  decide +kernel

end Linter

end SwiftTidy

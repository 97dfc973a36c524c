import SwiftTidy.Proofs.Comparisons
import SwiftTidy.Proofs.ShedClauses

/-!
# A corrected text read again

Nothing is found any more in a corrected tree. Its text, though, is read again from the beginning, and what followed a
clause or a chain may then belong to something else. This module says when a corrected text is clean for a reader who
knows nothing of the tree that it came from.
-/

namespace SwiftTidy.Rules

open Grammar Token Expectation

lemma isNode_eq_false_of_leaf {token : Token} {r : Path} {inner : Tree} (h : (Tree.leaf token).sub? r = some inner) :
    inner.isNode = false := by
  cases r with
  | nil => exact Option.some.inj h ▸ rfl
  | cons => cases h

/-- A node that stands in an operation stands in one of its sides. -/
lemma exists_side {operator : Operator} {left right inner : Tree} {i : Nat} {r : Path}
    (h : (operator.tree left right).sub? (i :: r) = some inner) (hnode : inner.isNode = true) :
    ∃ side, (side = left ∨ side = right) ∧ side.sub? r = some inner ∧ (operator.tree left right).ownerKind? (i :: r) =
      if r.length = 0 then some .binaryExpr else side.ownerKind? r := by
  rw [Operator.tree, Tree.sub?_node_cons] at h
  rw [Operator.tree, Tree.ownerKind?_cons]
  obtain ⟨side, hside, hsub⟩ := Option.bind_eq_some_iff.1 h
  rw [hside]
  refine ⟨side, ?_, hsub, rfl⟩
  have hmem := List.mem_of_getElem? hside
  simp only [List.mem_cons, List.mem_append, List.mem_map, List.not_mem_nil, or_false] at hmem
  obtain hleft | ⟨token, -, rfl⟩ | hright := hmem
  · exact .inl hleft
  · simp [isNode_eq_false_of_leaf hsub] at hnode
  · exact .inr hright

lemma exists_of_group {operand call : Tree} {r : Path} (h : (Side.group.tree [operand]).sub? r = some call)
    (hnode : call.isNode = true) (hkind : call.kind = .callExpr) :
    ∃ r', r = 1 :: 0 :: r' ∧ operand.sub? r' = some call ∧ (Side.group.tree [operand]).ownerKind? r =
      if r'.length = 0 then some .argument else operand.ownerKind? r' := by
  match r with
  | [] =>
    obtain rfl := Option.some.inj h
    cases hkind
  | 0 :: r | 2 :: r => simp [isNode_eq_false_of_leaf h] at hnode
  | [1] =>
    obtain rfl := Option.some.inj h
    cases hkind
  | 1 :: 0 :: r => exact ⟨r, rfl, h, by simp [Side.tree, Tree.ownerKind?_cons]⟩

variable {text : String} {sites : List Path} {q : Path} {part : Tree}

lemma isNode_ofTree (hfound : ∀ p ∈ sites, ∃ chain, chain? (parse text) p = some chain)
    (hpart : (parse text).sub? q = some part) (hq : q ∈ sites) :
    ((Graft.ofTree (swapAt? (parse text) sites) q part).tree true).isNode = true ∧
      ((Graft.ofTree (swapAt? (parse text) sites) q part).tree true).kind = .binaryExpr := by
  obtain ⟨chain, hchain⟩ := hfound q hq
  obtain ⟨_, _, _, _, _, links⟩ := chain?_eq_some_iff.1 hchain
  have hflattens := flattens_ofTree hfound hq links hpart
  generalize Graft.ofTree (swapAt? (parse text) sites) q part = graft at hflattens ⊢
  cases hflattens with
  | literal | operand => exact ⟨rfl, rfl⟩

mutual

lemma echo_ofTree (hfound : ∀ p ∈ sites, ∃ chain, chain? (parse text) p = some chain) (part : Tree)
    {q : Path} (hpart : (parse text).sub? q = some part) (hq : q ∉ sites) :
    part.Echo ((Graft.ofTree (swapAt? (parse text) sites) q part).tree true) := by
  cases part with
  | leaf token => exact Tree.echo_leaf.2 rfl
  | node kind children =>
    rw [Graft.ofTree_node (swapAt?_eq_none hq)]
    refine Tree.echo_node.2 ⟨_, rfl, echoOf_ofTrees hfound children hpart 0 fun i child hchild => ?_⟩
    rw [Tree.sub?_concat, hpart, Nat.zero_add]
    exact hchild

lemma echoOf_ofTrees (hfound : ∀ p ∈ sites, ∃ chain, chain? (parse text) p = some chain) (parts : List Tree)
    {q : Path} {kind : Kind} {children : List Tree}
    (hnode : (parse text).sub? q = some (.node kind children)) (i : Nat)
    (hparts : ∀ (j : Nat) part, parts[j]? = some part → (parse text).sub? (q ++ [i + j]) = some part) :
    Tree.EchoOf kind parts (Graft.treesOf true (Graft.ofTrees (swapAt? (parse text) sites) q i parts)) := by
  cases parts with
  | nil => rw [Tree.EchoOf]; rfl
  | cons part rest =>
    have hpart := hparts 0 part rfl
    rw [Nat.add_zero] at hpart
    rw [Tree.EchoOf]
    refine .inl ⟨_, _, rfl, ?_, echoOf_ofTrees hfound rest hnode (i + 1) fun j part hj => ?_⟩
    · by_cases hq : q ++ [i] ∈ sites
      · obtain ⟨chain, hchain⟩ := hfound _ hq
        obtain ⟨_, _, _, _, _, links⟩ := chain?_eq_some_iff.1 hchain
        have hloose := links.loose
        rw [Tree.ownerKind?_concat, hnode] at hloose
        exact .inr ⟨hloose, callsMember_of_chain? hchain hpart, isNode_ofTree hfound hpart hq⟩
      · exact .inl (echo_ofTree hfound part hpart hq)
    · rw [Nat.add_right_comm, Nat.add_assoc]
      exact hparts (j + 1) part hj

end

/-- Every call in a tree with comparisons that is not part of a tighter expression was one at first, in the same
surroundings. -/
lemma exists_of_call (hfound : ∀ p ∈ sites, ∃ chain, chain? (parse text) p = some chain)
    {i : Nat} {r : Path} {call : Tree} (hpart : (parse text).sub? q = some part)
    (hcall : ((Graft.ofTree (swapAt? (parse text) sites) q part).tree true).sub? (i :: r) = some call)
    (hnode : call.isNode = true) (hkind : call.kind = .callExpr) {owner : Option Kind}
    (howner : ((Graft.ofTree (swapAt? (parse text) sites) q part).tree true).ownerKind? (i :: r) = owner)
    (hloose : owner.any bindsTightly = false) :
    ∃ p old, p ∉ sites ∧ (parse text).sub? p = some old ∧ (parse text).ownerKind? p = owner ∧
      call = (Graft.ofTree (swapAt? (parse text) sites) p old).tree true := by
  induction hlength : r.length using Nat.strong_induction_on generalizing q part i r with
  | _ n ih =>
    -- what has come to some place is the call, or the call is deeper in it
    have hnext {p : Path} {old : Tree} {kind : Kind} {r' : Path} (hold : (parse text).sub? p = some old)
        (hkindOf : bindsTightly kind = false → (parse text).ownerKind? p = some kind) (hr' : r'.length ≤ n)
        (hsub : ((Graft.ofTree (swapAt? (parse text) sites) p old).tree true).sub? r' = some call)
        (howner : (if r'.length = 0 then some kind else
          ((Graft.ofTree (swapAt? (parse text) sites) p old).tree true).ownerKind? r') = owner) :
        ∃ p old, p ∉ sites ∧ (parse text).sub? p = some old ∧ (parse text).ownerKind? p = owner ∧
          call = (Graft.ofTree (swapAt? (parse text) sites) p old).tree true := by
      cases r' with
      | nil =>
        obtain rfl := Option.some.inj hsub
        obtain rfl : some kind = owner := howner
        refine ⟨p, old, fun hmem => ?_, hold, hkindOf hloose, rfl⟩
        rw [(isNode_ofTree hfound hold hmem).2] at hkind
        cases hkind
      | cons j r' => exact ih r'.length hr' hold hsub howner rfl
    by_cases hq : q ∈ sites
    · obtain ⟨chain, hchain⟩ := hfound q hq
      obtain ⟨_, _, subject, _, _, links⟩ := chain?_eq_some_iff.1 hchain
      have hsubject : (parse text).sub? (q ++ [0, 0]) = some subject.tree := by
        obtain ⟨dots, more, rfl⟩ := links.exists_shape hpart
        rw [Tree.sub?_append_some hpart]
        rfl
      have hflattens := flattens_ofTree hfound hq links hpart
      generalize Graft.ofTree (swapAt? (parse text) sites) q part = graft at hflattens hcall howner
      cases hflattens with
      | literal =>
        obtain ⟨side, rfl | rfl, hsub, hsideOwner⟩ := exists_side hcall hnode
        · exact hnext hsubject (fun h => by cases h) hlength.le hsub (hsideOwner.symm.trans howner)
        · match r with
          | [] =>
            obtain rfl := Option.some.inj hsub
            cases hkind
          | 0 :: r => simp [isNode_eq_false_of_leaf hsub] at hnode
      | @operand _ p operand _ _ _ _ hoperand _ _ _ _ hargument =>
        have hplace : (parse text).sub? (q ++ p) = some operand := by rw [Tree.sub?_append_some hpart, hoperand]
        obtain ⟨side, rfl | rfl, hsub, hsideOwner⟩ := exists_side hcall hnode
        · exact hnext hsubject (fun h => by cases h) hlength.le hsub (hsideOwner.symm.trans howner)
        · replace howner := hsideOwner.symm.trans howner
          cases hgrouped : isGrouped (parse text) sites (q ++ p) with
          | false =>
            simp only [hgrouped, Bool.false_eq_true, if_false] at hsub howner
            exact hnext hplace (fun h => by cases h) hlength.le hsub howner
          | true =>
            simp only [hgrouped, if_true] at hsub howner
            obtain ⟨r', rfl, hsub, hinner⟩ := exists_of_group hsub hnode hkind
            rw [if_neg (by simp)] at howner
            exact hnext hplace (fun _ => hargument) (by simp at hlength; omega) hsub (hinner.symm.trans howner)
    · cases part with
      | leaf token => cases hcall
      | node kind children =>
        rw [Graft.ofTree_node (swapAt?_eq_none hq), Graft.tree] at hcall howner
        rw [Tree.sub?_node_cons, Graft.treesOf_eq_map, List.getElem?_map, Graft.getElem?_ofTrees, Nat.zero_add] at hcall
        rw [Tree.ownerKind?_cons, Graft.treesOf_eq_map, List.getElem?_map, Graft.getElem?_ofTrees, Nat.zero_add] at howner
        cases hchild : children[i]? with
        | none => simp [hchild] at hcall
        | some child =>
          rw [hchild] at hcall howner
          have hplace : (parse text).sub? (q ++ [i]) = some child := by rw [Tree.sub?_concat, hpart]; exact hchild
          exact hnext hplace (fun _ => by rw [Tree.ownerKind?_concat, hpart]; rfl) hlength.le hcall howner

/-- A readable text is read, after a pass, as its tree with comparisons in the place of the chains. -/
lemma parse_corrected (h : Readable text [] []) :
    parse (expectation.corrected text []).text =
      (Graft.ofTree (swapAt? (parse text) (expectation.sitePaths (parse text) [])) [] (parse text)).tree true := by
  have hall : upTo (expectation.sitePaths (parse text) []) [] = expectation.sitePaths (parse text) [] :=
    List.filter_eq_self.2 (by simp)
  obtain ⟨hlift, hsteady, hback, hview⟩ := h
  obtain ⟨hfound, -, hroot, -⟩ := carried_corrected text []
  rw [hall] at hlift
  rw [regrowth, hall] at hsteady
  have hreached : reached text [] [] = ((regrowth text [] []).tree true).leaves := by
    simp [reached, Tree.behind, List.rdrop]
  have hbeyond : beyond text [] [] = [] := (hview [] (by simp)).1.eq_nil
  have htokens : tokensOf (expectation.corrected text []).text = reached text [] [] := by
    rw [← List.prefix_iff_eq_append.1 hback, ← beyond, hbeyond, List.append_nil]
  rw [parse, htokens, hreached, regrowth, hall]
  exact Graft.parse_ofTree (swapAt?_eq_none hroot) (fits_ofTree hfound hlift (Tree.sub?_nil _) fun _ => rfl) hsteady

/-- Nothing is left of the chains of a readable text. -/
lemma sites_reread_expectation (h : Readable text [] []) :
    expectation.sites (parse (expectation.corrected text []).text) [] = [] := by
  have hrule : expectation.IsBuiltin := .inl rfl
  obtain ⟨hfound, -⟩ := carried_corrected text []
  rw [Rule.sites_eq_nil_iff hrule (shaped_parse _), parse_corrected h]
  rintro ⟨path, hsite⟩
  obtain ⟨chain, hchain⟩ := hasSite_expectation.1 hsite
  obtain ⟨⟨place, call⟩, _, _, _, _, links⟩ := chain?_eq_some_iff.1 hchain
  obtain ⟨rfl, hcall⟩ := Part.inPlace_of_part? links.part
  obtain ⟨hnode, hkind⟩ := links.isCall
  match place with
  | [] =>
    obtain rfl := Option.some.inj hcall
    rw [Part.kind, ← parse_corrected h, kind_parse] at hkind
    cases hkind
  | i :: r =>
    obtain ⟨p, old, hp, hold, howner, rfl⟩ := exists_of_call hfound (Tree.sub?_nil _) hcall hnode hkind rfl links.loose
    have hrel := rel_chain? hold hcall (echo_ofTree hfound old hold hp) howner.symm ((shaped_parse text).sub? hold)
    rw [hchain] at hrel
    cases hfirst : chain? (parse text) p with
    | none => rw [hfirst] at hrel; cases hrel
    | some first =>
      exact hp ((Rule.mem_sitePaths_nil hrule (shaped_parse text)).2 (hasSite_expectation.2 ⟨first, hfirst⟩))

end SwiftTidy.Rules

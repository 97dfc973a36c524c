import Mathlib.Data.List.DropRight
import SwiftTidy.Proofs.Regrowth

/-!
# Comparisons of a text that is read again

Somebody who reads a corrected text knows nothing of the chains that were in it. They should find a comparison in the
place of each chain, of the same bytes as in the corrected tree, with the subject of the chain to its left and the
operand to its right. This is so up to the first chain that cannot be flattened (`Rules.Readable`,
`Rules.flattened_reread`): with a closure at its end an operand is none in a condition.
-/

namespace SwiftTidy

open Grammar SwiftTidy.Tree

namespace Tree

/-- Two nodes that begin at the same byte, with the same tokens child by child, take up the same bytes, and so do their
children. -/
lemma spanAt_congr {tree other : Tree} {p q : Path} {kind : Kind} {children others : List Tree}
    (htree : tree.sub? p = some (.node kind children)) (hother : other.sub? q = some (.node kind others))
    (hstart : tree.startAt p = other.startAt q) (hmap : children.map leaves = others.map leaves) :
    tree.spanAt p = other.spanAt q ∧ ∀ i, tree.spanAt (p ++ [i]) = other.spanAt (q ++ [i]) := by
  have hwidth (n : Nat) : widthOf (children.take n) = widthOf (others.take n) := by
    rw [widthOf_eq_utf8ByteSize, widthOf_eq_utf8ByteSize, leavesOf_eq_flatten, leavesOf_eq_flatten, List.map_take,
      List.map_take, hmap]
  constructor
  · have hall : widthOf children = widthOf others := by
      rw [widthOf_eq_utf8ByteSize, widthOf_eq_utf8ByteSize, leavesOf_eq_flatten, leavesOf_eq_flatten, hmap]
    simp only [spanAt, hstart, htree, hother, Option.map_some, Option.getD_some, width, hall]
  · intro i
    have hchild : children[i]?.map width = others[i]?.map width := by
      have hleaves : children[i]?.map leaves = others[i]?.map leaves := by
        rw [← List.getElem?_map, hmap, List.getElem?_map]
      have hcomp : width = (fun tokens => (Token.textOf tokens).utf8ByteSize) ∘ leaves :=
        funext fun tree => width_eq_utf8ByteSize tree
      rw [hcomp, ← Option.map_map, hleaves, Option.map_map]
    have hzero (children : List Tree) : (Tree.node kind children).startAt [i] = widthOf (children.take i) := by
      rw [startAt]
      cases children[i]? <;> simp [startAt]
    simp only [spanAt, startAt_append htree, startAt_append hother, hstart, hzero, hwidth, sub?_concat, htree, hother,
      Option.bind_some, Tree.children, hchild]

lemma startAt_congr {tree other part copy : Tree} {p q : Path} (tokens : List Token) (hpart : tree.sub? p = some part)
    (hcopy : other.sub? q = some copy) (hsame : part.leaves = copy.leaves)
    (htree : tree.leaves = tokens ++ tree.behind p) (hother : other.leaves = tokens ++ other.behind q) :
    tree.startAt p = other.startAt q := by
  obtain ⟨front, hfront, hstart⟩ := exists_startAt_eq hpart
  obtain ⟨front', hfront', hstart'⟩ := exists_startAt_eq hcopy
  rw [htree, ← List.append_assoc, hsame] at hfront
  rw [hother, ← List.append_assoc, List.append_cancel_right hfront] at hfront'
  rw [hstart, hstart', List.append_cancel_right (List.append_cancel_right hfront')]

end Tree

/-! ## Parts of an operation -/

namespace Part

variable {path : Path} {kind : Kind} {left right : Tree} {tokens : List Token}

lemma nodes_operation (hleft : left.isNode = true) (hright : right.isNode = true) :
    (Part.mk path (.node kind (left :: (tokens.map .leaf ++ [right])))).nodes =
      [⟨path ++ [0], left⟩, ⟨path ++ [tokens.length + 1], right⟩] := by
  have htokens : ((tokens.map Tree.leaf).mapIdx fun i child => Part.mk (path ++ [i + 1]) child).filter
      (fun child => child.tree.isNode) = [] := by
    rw [List.filter_eq_nil_iff]
    intro part hpart
    obtain ⟨i, hi, rfl⟩ := List.mem_mapIdx.1 hpart
    simp [isNode]
  simp only [nodes, children, Tree.children, List.mapIdx_cons, List.mapIdx_append, List.filter_cons, List.filter_append,
    htokens]
  simp [hleft, hright]

lemma sides_operation (hleft : left.IsExpression) (hright : right.IsExpression) :
    (Part.mk path (.node kind (left :: (tokens.map .leaf ++ [right])))).expression? = some ⟨path ++ [0], left⟩ ∧
      (Part.mk path (.node kind (left :: (tokens.map .leaf ++ [right])))).rightOperand? =
        some ⟨path ++ [tokens.length + 1], right⟩ := by
  rw [expression?, rightOperand?, expressions, nodes_operation hleft.1 hright.1]
  simp [Part.kind, hleft.2, hright.2]

end Part

namespace Grammar.Operator

variable (operator : Operator)

lemma isOperatorPart : ∀ token ∈ operator.tokens, token.kind.isOperatorPart = true := by
  obtain ⟨first, tokens, htokens, -, hfirst⟩ := operator.exists_cons
  have htail := operator.tail_tokens
  rw [htokens] at htail ⊢
  refine List.forall_mem_cons.2 ⟨?_, htail⟩
  rcases hfirst with h | h | h <;> rw [h] <;> rfl

/-- The operator between the two sides of an operation. -/
lemma operator_part (path : Path) {left right : Tree} (hleft : left.isNode = true) (hright : right.isNode = true) :
    (Part.mk path (operator.tree left right)).operator = Token.textOf operator.tokens := by
  have hnone {tree : Tree} (h : tree.isNode = true) : tree.token? = none := by
    cases tree with
    | leaf token => cases h
    | node kind children => rfl
  have htokens : (operator.tree left right).childTokens = operator.between := by
    rw [tree, childTokens, Tree.children, List.filterMap_cons_none (hnone hleft), List.filterMap_append,
      List.filterMap_cons_none (hnone hright), List.filterMap_nil, List.append_nil, List.filterMap_map]
    exact List.filterMap_some
  rw [Part.operator, htokens, between, List.filter_append, List.filter_cons_of_neg (by decide),
    List.filter_cons_of_neg (by decide), List.filter_nil, List.append_nil, List.filter_eq_self.2]
  exact fun token htoken => by rw [operator.isOperatorPart token htoken]; rfl

end Grammar.Operator

namespace Rules

open Expectation

variable {first : Tree} {done : List Path} {chain : Chain} {later part right corrected : Tree} {q path : Path}

/-- What has become of a part that no chain was flattened in. -/
lemma Carried.eq_of_apart (h : Carried first done q later) (hpart : first.sub? q = some part)
    (hapart : ∀ p ∈ done, ¬ q <+: p) : later = part := by
  induction h generalizing part with
  | leaf h => exact Option.some_injective _ (h.symm.trans hpart)
  | @node q kind children laters h _ hlength _ ih =>
    obtain rfl : part = _ := Option.some_injective _ (hpart.symm.trans h)
    congr 1
    refine List.ext_getElem? fun i => ?_
    cases hlater : laters[i]? with
    | none =>
      rw [eq_comm, List.getElem?_eq_none_iff, ← hlength]
      exact List.getElem?_eq_none_iff.1 hlater
    | some later =>
      obtain ⟨child, hchild⟩ : ∃ child, children[i]? = some child := by
        have hi := (List.getElem?_eq_some_iff.1 hlater).1
        exact ⟨_, List.getElem?_eq_getElem (by rw [← hlength]; exact hi)⟩
      rw [hchild, ih i later hlater (by rw [sub?_concat, hpart]; exact hchild) fun p hp hle =>
        hapart p hp ((List.prefix_append _ _).trans hle)]
  | comparison hdone => exact absurd List.prefix_rfl (hapart _ hdone)

/-- Every operand of a chain stands at one of its places. -/
lemma Expectation.exists_operand (h : chain? first path = some chain) {i : Nat} {place : Path}
    (hplace : (operandPaths first path)[i]? = some place) :
    ∃ operand, (chain.subject :: chain.argument?.toList)[i]? = some operand ∧ first.sub? place = some operand := by
  obtain ⟨call, member, subject, argument, matching, links⟩ := chain?_eq_some_iff.1 h
  have hlength : (chain.subject :: chain.argument?.toList).length = (operandPaths first path).length := by
    rw [links.operandPaths_eq, ← links.map_value?]
    cases value? matching <;> simp
  have hlt := (List.getElem?_eq_some_iff.1 hplace).1
  have hoperand := List.getElem?_eq_getElem (hlength ▸ hlt)
  exact ⟨_, hoperand, links.sub?_of_operandPaths hplace hoperand⟩

/-- The tree of a text with comparisons in the place of the chains that do not come behind a path. -/
def regrowth (text : String) (regions : List Region) (path : Path) : Graft :=
  .ofTree (swapAt? (parse text) (upTo (expectation.sitePaths (parse text) regions) path)) [] (parse text)

/-- The tokens of this tree up to the end of the part at the path. -/
def reached (text : String) (regions : List Region) (path : Path) : List Token :=
  ((regrowth text regions path).tree true).leaves.rdrop ((parse text).behind path).length

/-- The tokens of the corrected text that come behind. -/
def beyond (text : String) (regions : List Region) (path : Path) : List Token :=
  (tokensOf (expectation.corrected text regions).text).drop (reached text regions path).length

/-- Chains can be flattened so that a reader finds the comparisons, up to the end of the part at a path. The chains are
such that they can be lifted, and what is read elsewhere does not depend on whether a chain or a comparison comes. The
tokens up to the end come back, and from there the corrected text looks like the text. -/
structure Readable (text : String) (regions : List Region) (path : Path) : Prop where
  liftable : ∀ site ∈ upTo (expectation.sitePaths (parse text) regions) path,
    isLiftable (parse text) (upTo (expectation.sitePaths (parse text) regions) path) site = true
  steady : Graft.Steady (regrowth text regions path).segments
  back : reached text regions path <+: tokensOf (expectation.corrected text regions).text
  view : ∀ v ∈ (reached text regions path).tails,
    SameView (v ++ (parse text).behind path) (v ++ beyond text regions path) ∧
      SameView (v ++ beyond text regions path) (v ++ (parse text).behind path)

lemma readable_iff {text : String} {regions : List Region} : Readable text regions path ↔
    (∀ site ∈ upTo (expectation.sitePaths (parse text) regions) path,
      isLiftable (parse text) (upTo (expectation.sitePaths (parse text) regions) path) site = true) ∧
    Graft.Steady (regrowth text regions path).segments ∧
    reached text regions path <+: tokensOf (expectation.corrected text regions).text ∧
    ∀ v ∈ (reached text regions path).tails,
      SameView (v ++ (parse text).behind path) (v ++ beyond text regions path) ∧
        SameView (v ++ beyond text regions path) (v ++ (parse text).behind path) :=
  ⟨fun h => ⟨h.liftable, h.steady, h.back, h.view⟩, fun h => ⟨h.1, h.2.1, h.2.2.1, h.2.2.2⟩⟩

instance (text : String) (regions : List Region) (path : Path) : Decidable (Readable text regions path) :=
  decidable_of_iff' _ readable_iff

/-- A comparison that is found in a text, in the place that the comparison of a chain has in a tree of the text: an
operation of the same bytes, with the operator of the chain, its subject to the left and the other side to the right. -/
structure ReadAgain (corrected : Tree) (path : Path) (chain : Chain) (right : Tree) (found left operand : Part) :
    Prop where
  mem : found ∈ (parse corrected.text).nodeParts
  form : found.exprForm? = some .binary
  span : (parse corrected.text).spanAt found.path = corrected.spanAt path
  operator : found.operator = chain.operator
  left_eq : found.expression? = some left
  left_form : left.exprForm? = some .call
  left_span : (parse corrected.text).spanAt left.path = corrected.spanAt (path ++ [0])
  left_text : left.tree.text = chain.subject.text
  operand_eq : found.rightOperand? = some operand
  operand_span : (parse corrected.text).spanAt operand.path = corrected.spanAt (path ++ [chain.between.length + 1])
  operand_text : operand.tree.text = right.text

/-- An operation that is found where a tree of its text has a comparison. -/
lemma exists_readAgain {operator : Operator} {left operand : Tree} {place : Path}
    (hsub : corrected.sub? path = some (chain.comparison right))
    (hfound : (parse corrected.text).sub? place = some (operator.tree left operand))
    (hstart : (parse corrected.text).startAt place = corrected.startAt path)
    (hoperator : operator.tokens = tokensOf chain.operator) (hleft : left.leaves = chain.subject.leaves)
    (hcall : left.isNode = true ∧ left.kind = .callExpr) (hright : operand.leaves = right.leaves)
    (hoperand : operand.IsExpression) : ∃ found left operand, ReadAgain corrected path chain right found left operand := by
  have hbetween : operator.between = chain.between := by rw [Operator.between, hoperator, Chain.between]
  have hmap : (left :: (operator.between.map .leaf ++ [operand])).map leaves =
      (chain.subject :: (chain.between.map .leaf ++ [right])).map leaves := by
    simp [hleft, hright, hbetween]
  rw [comparison_eq] at hsub
  obtain ⟨hspan, hspans⟩ := spanAt_congr hfound hsub hstart hmap
  obtain ⟨hexpression, hrightOperand⟩ : (Part.mk place (operator.tree left operand)).expression? = some ⟨place ++ [0], left⟩ ∧
      (Part.mk place (operator.tree left operand)).rightOperand? = some ⟨place ++ [operator.between.length + 1], operand⟩ :=
    Part.sides_operation ⟨hcall.1, by rw [hcall.2]; rfl⟩ hoperand
  exact ⟨⟨place, operator.tree left operand⟩, ⟨place ++ [0], left⟩, ⟨place ++ [chain.between.length + 1], operand⟩,
    { mem := List.mem_filterMap.2 ⟨place, mem_nodePaths.2 ⟨_, _, hfound⟩, by rw [part?, hfound]; rfl⟩
      form := rfl
      span := hspan
      operator := by rw [operator.operator_part place hcall.1 hoperand.1, hoperator, textOf_tokensOf]
      left_eq := hexpression
      left_form := by rw [Part.exprForm?, if_pos hcall.1, Part.kind, hcall.2]; rfl
      left_span := hspans 0
      left_text := by rw [text, hleft, text]
      operand_eq := hbetween ▸ hrightOperand
      operand_span := hspans _
      operand_text := by rw [text, hright, text] }⟩

lemma Carried.of_mem_iff {sites : List Path} (h : Carried first done q later) (hsites : ∀ p, p ∈ done ↔ p ∈ sites) :
    Carried first sites q later := by
  induction h with
  | leaf h => exact .leaf h
  | node h hdone hlength _ ih => exact .node h (fun hmem => hdone ((hsites _).2 hmem)) hlength ih
  | comparison hdone hright hsame hlength _ hnotes ih =>
    exact .comparison ((hsites _).1 hdone) hright hsame hlength ih hnotes

/-- What a corrected tree has become of the tree of a text. -/
lemma carried_corrected (text : String) (regions : List Region) :
    (∀ p ∈ expectation.sitePaths (parse text) regions, ∃ chain, chain? (parse text) p = some chain) ∧
      Carried (parse text) (expectation.sitePaths (parse text) regions) [] (expectation.corrected text regions) ∧
      [] ∉ expectation.sitePaths (parse text) regions ∧
      ∀ path ∈ expectation.sitePaths (parse text) regions,
        (∀ outer ∈ expectation.sitePaths (parse text) regions, outer <+: path → outer = path) →
          ∃ later, (expectation.corrected text regions).sub? path = some later := by
  have hroot : (Source.ofText text).tree.kind ≠ .callExpr := by
    rw [Source.ofText, kind_parse]
    simp
  obtain ⟨done, pass, hdone, hrewritten, hcorrected⟩ :=
    rewritten_correct (Source.ofText text) (shaped_parse text) hroot regions
  have hfound : ∀ p ∈ expectation.sitePaths (parse text) regions, ∃ chain, chain? (parse text) p = some chain :=
    fun p hp => hrewritten.found p ((hdone p).2 hp)
  refine ⟨hfound, ?_, fun hmem => hroot ?_, fun path hpath houter => ?_⟩
  · have hcarried := hrewritten.steps.carried (shaped_parse text) hrewritten.found
    rw [Rule.corrected, hcorrected]
    exact hcarried.of_mem_iff hdone
  · obtain ⟨chain, hchain⟩ := hfound [] hmem
    have hcalls := callsMember_of_chain? hchain (sub?_nil _)
    simp only [callsMember, Bool.and_eq_true, beq_iff_eq] at hcalls
    exact hcalls.1.2
  · obtain ⟨chain, right, -, hsub⟩ := hrewritten.compared path ((hdone path).2 hpath) fun p hp => houter p ((hdone p).1 hp)
    exact ⟨_, hcorrected ▸ hsub⟩

lemma mergeSort_pair {α : Type} (le : α → α → Bool) (a b : α) :
    [a, b].mergeSort le = if le a b then [a, b] else [b, a] := by
  simp [List.mergeSort, List.merge, List.MergeSort.Internal.splitInTwo]

end Rules

end SwiftTidy

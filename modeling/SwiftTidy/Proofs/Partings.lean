import SwiftTidy.Proofs.BareSites
import SwiftTidy.Proofs.Preorder
import SwiftTidy.Proofs.Ranks

/-!
# What parts expressions from clauses

No expression stands in a return clause, and return clauses stand in an expression only within its closures, between
braces (`Tree.Sturdy.exists_braces`). Where a clause comes behind an expression, there is a significant token between
the two (`Tree.Sound.exists_between`). All this is found in the tree of a text, and it stays so when expressions take
the place of others.
-/

namespace SwiftTidy

namespace Tree

/-! ## Rows without trivia -/

lemma bareOf_eq_map (row : List Tree) : bareOf row = (row.filter (!·.isTriviaLeaf)).map bare := by
  induction row with
  | nil => rfl
  | cons tree rest ih =>
    rw [bareOf, ih, List.filter_cons]
    cases tree.isTriviaLeaf <;> rfl

variable {kind : Kind} {p q o : Path} {row front left right : List Tree} {tree last part old new : Tree}

lemma isTriviaLeaf_of_isNode (h : tree.isNode = true) : tree.isTriviaLeaf = false := by
  cases tree with
  | leaf token => simp [isNode] at h
  | node kind children => rfl

@[simp] lemma isNode_bare (tree : Tree) : tree.bare.isNode = tree.isNode := by
  cases tree <;> simp [bare, isNode]

@[simp] lemma kind_bare (tree : Tree) : tree.bare.kind = tree.kind := by
  cases tree <;> simp [bare, kind]

lemma bare_mem_bareOf {child : Tree} (h : child ∈ row) (hnode : child.isNode = true) : child.bare ∈ bareOf row := by
  rw [bareOf_eq_map]
  exact List.mem_map_of_mem (List.mem_filter.2 ⟨h, by simp [isTriviaLeaf_of_isNode hnode]⟩)

lemma bareOf_cons_of_isNode {child : Tree} (h : child.isNode = true) (rest : List Tree) :
    bareOf (child :: rest) = child.bare :: bareOf rest := by
  rw [bareOf, isTriviaLeaf_of_isNode h]
  rfl

/-- Where a row without trivia ends, the row itself goes on with trivia only. -/
lemma exists_last_of_bareOf (h : bareOf row = front ++ [last]) :
    ∃ left child right, row = left ++ child :: right ∧ child.isTriviaLeaf = false ∧ child.bare = last ∧
      ∀ tree ∈ right, tree.isTriviaLeaf = true := by
  induction row using List.reverseRecOn with
  | nil => simp at h
  | append_singleton row tree ih =>
    rw [bareOf_append] at h
    cases htrivia : tree.isTriviaLeaf with
    | true =>
      obtain ⟨left, child, right, rfl, hchild, hbare, hright⟩ := ih (by simpa [bareOf_eq_map, htrivia] using h)
      refine ⟨left, child, right ++ [tree], by simp, hchild, hbare, fun other hother => ?_⟩
      rcases List.mem_append.1 hother with hother | hother
      · exact hright other hother
      · rwa [List.mem_singleton.1 hother]
    | false =>
      have hsingle : bareOf [tree] = [tree.bare] := by simp [bareOf_eq_map, htrivia]
      rw [hsingle] at h
      exact ⟨row, tree, [], by simp, htrivia, (List.append_inj_right' h rfl) |> List.singleton_inj.1, by simp⟩

lemma exists_first_of_bareOf {rest : List Tree} {first : Tree} (h : bareOf row = first :: rest) :
    ∃ left child right, row = left ++ child :: right ∧ child.isTriviaLeaf = false ∧ child.bare = first ∧
      ∀ tree ∈ left, tree.isTriviaLeaf = true := by
  rw [bareOf_eq_map] at h
  obtain ⟨child, tail, hfilter, hbare, -⟩ := List.map_eq_cons_iff.1 h
  obtain ⟨left, right, rfl, hleft, hchild, -⟩ := List.filter_eq_cons_iff.1 hfilter
  exact ⟨left, child, right, rfl, by simpa using hchild, hbare, fun tree htree => by simpa using hleft tree htree⟩

/-! ## Sturdy trees -/

/-- Whether a tree is an expression. -/
def isExpression (tree : Tree) : Bool := tree.isNode && tree.kind.isExpression

/-- Whether a tree ends with a brace if it is a closure. -/
def isClosed : Tree → Bool
  | .leaf _ => true
  | .node kind children => kind != .closureExpr || children.getLast?.any fun last => !last.isNode && last.kind == .rbrace

/-- All nodes hold what they may, apart from trivia. -/
structure Sound (tree : Tree) : Prop where
  fits : ∀ {p kind children}, tree.sub? p = some (.node kind children) → Fits kind (hollowOf (bareOf children))

/-- All nodes hold what they may, and all closures end with their braces. -/
structure Sturdy (tree : Tree) : Prop extends Sound tree where
  closed : ∀ {p part}, tree.sub? p = some part → part.isClosed = true

lemma Fitted.child (h : (Tree.node kind row).Fitted) {child : Tree} (hchild : child ∈ row) : child.Fitted := by
  obtain ⟨j, hj⟩ := exists_sub?_of_mem (.node kind row) hchild
  exact fun p k children hsub => h (j :: p) k children ((sub?_append_some hj p).trans hsub)

lemma isNode_of_sub? (h : tree.sub? p = some part) (hnode : part.isNode = true) : tree.isNode = true := by
  cases p with
  | nil =>
    obtain rfl : tree = part := by simpa using h
    exact hnode
  | cons i p =>
    obtain ⟨kind, children, child, rfl, -, -⟩ := exists_child_of_sub?_cons h
    rfl

lemma fits_of_fitted (h : tree.bare.Fitted) {children : List Tree} (hp : tree.sub? p = some (.node kind children)) :
    Fits kind (hollowOf (bareOf children)) := by
  induction p generalizing tree with
  | nil =>
    obtain rfl : tree = .node kind children := by simpa using hp
    exact h [] kind (bareOf children) (by simp)
  | cons i p ih =>
    obtain ⟨k, row, child, rfl, hchild, hsub⟩ := exists_child_of_sub?_cons hp
    rw [bare_node] at h
    exact ih (h.child (bare_mem_bareOf (List.mem_of_getElem? hchild) (isNode_of_sub? hsub rfl))) hsub

namespace Sound

variable {tree : Tree} {q : Path}

lemma sub? (h : tree.Sound) {part : Tree} (hpart : tree.sub? q = some part) : part.Sound where
  fits hsub := h.fits ((sub?_append_some hpart _).trans hsub)

lemma child {kind : Kind} {children : List Tree} (h : (Tree.node kind children).Sound) {child : Tree}
    (hchild : child ∈ children) : child.Sound := by
  obtain ⟨j, hj⟩ := exists_sub?_of_mem (.node kind children) hchild
  exact h.sub? hj

end Sound

namespace Sturdy

variable {tree : Tree} {q : Path}

lemma sub? (h : tree.Sturdy) {part : Tree} (hpart : tree.sub? q = some part) : part.Sturdy where
  toSound := h.toSound.sub? hpart
  closed hsub := h.closed ((sub?_append_some hpart _).trans hsub)

lemma child {kind : Kind} {children : List Tree} (h : (Tree.node kind children).Sturdy) {child : Tree}
    (hchild : child ∈ children) : child.Sturdy := by
  obtain ⟨j, hj⟩ := exists_sub?_of_mem (.node kind children) hchild
  exact h.sub? hj

lemma leaf (token : Token) : (Tree.leaf token).Sturdy where
  fits {p} _ _ h := by cases p <;> simp [Tree.sub?] at h
  closed {p} _ h := by
    cases p with
    | nil =>
      obtain rfl := Option.some.inj h
      rfl
    | cons i p => simp [Tree.sub?] at h

lemma node {kind : Kind} {children : List Tree} (hfits : Fits kind (hollowOf (bareOf children)))
    (hclosed : (Tree.node kind children).isClosed = true) (hchildren : ∀ child ∈ children, child.Sturdy) :
    (Tree.node kind children).Sturdy where
  fits {p} k cs h := by
    obtain heq | ⟨child, hchild, q, hsub⟩ := sub?_node_cases h
    · obtain ⟨rfl, rfl⟩ := Tree.node.inj heq
      exact hfits
    · exact (hchildren child hchild).fits hsub
  closed {p} part h := by
    obtain rfl | ⟨child, hchild, q, hsub⟩ := sub?_node_cases h
    · exact hclosed
    · exact (hchildren child hchild).closed hsub

end Sturdy

/-! ## Exchanges -/

lemma exists_node_of_isExpression (h : tree.isExpression = true) :
    ∃ kind children, tree = .node kind children ∧ kind.isExpression = true := by
  simp only [isExpression, Bool.and_eq_true] at h
  obtain ⟨kind, children, rfl⟩ := exists_node_of_isNode h.1
  exact ⟨kind, children, rfl, h.2⟩

lemma hollow_bare_of_isExpression (h : tree.isExpression = true) : tree.bare.hollow = .node .identExpr [] := by
  obtain ⟨kind, children, rfl, hkind⟩ := exists_node_of_isExpression h
  rw [bare_node, hollow_expression hkind]

lemma isNode_of_isExpression (h : tree.isExpression = true) : tree.isNode = true :=
  (Bool.and_eq_true_iff.1 h).1

lemma hollowOf_bareOf_exchange {child child' : Tree} (hnode : child.isNode = true) (hnode' : child'.isNode = true)
    (h : child'.bare.hollow = child.bare.hollow) :
    hollowOf (bareOf (left ++ child' :: right)) = hollowOf (bareOf (left ++ child :: right)) := by
  simp only [bareOf_append, bareOf_cons_of_isNode hnode, bareOf_cons_of_isNode hnode', hollowOf_eq_map, List.map_append,
    List.map_cons, h]

lemma hollow_bare_replaceAt (hold : tree.sub? q = some old) (hexpression : old.isExpression = true)
    (hnew : new.isExpression = true) : (tree.replaceAt q new).bare.hollow = tree.bare.hollow := by
  induction q, tree, hold using sub?_induction with
  | here => rw [replaceAt, hollow_bare_of_isExpression hexpression, hollow_bare_of_isExpression hnew]
  | inside kind left child right q hsub ih =>
    have hnode := isNode_of_sub? hsub (isNode_of_isExpression hexpression)
    have hnode' := isNode_of_sub? (sub?_replaceAt_self new hsub) (isNode_of_isExpression hnew)
    rw [replaceAt_node_length, bare_node, bare_node, hollow, hollow, hollowOf_bareOf_exchange hnode hnode' ih]

lemma isClosed_exchange {child : Tree} (child' : Tree) (hnode : child.isNode = true)
    (h : (Tree.node kind (left ++ child :: right)).isClosed = true) :
    (Tree.node kind (left ++ child' :: right)).isClosed = true := by
  cases right with
  | nil =>
    have hkind : kind ≠ .closureExpr := by
      rintro rfl
      simp [isClosed, hnode] at h
    simp [isClosed, hkind]
  | cons tree right => simpa [isClosed] using h

/-- Expressions may take the place of others. -/
lemma Sturdy.replaceAt (h : tree.Sturdy) (hold : tree.sub? q = some old) (hexpression : old.isExpression = true)
    (hnew : new.isExpression = true) (hsturdy : new.Sturdy) : (tree.replaceAt q new).Sturdy := by
  induction q, tree, hold using sub?_induction with
  | here => exact hsturdy
  | inside kind left child right q hsub ih =>
    have hnode := isNode_of_sub? hsub (isNode_of_isExpression hexpression)
    have hnode' := isNode_of_sub? (sub?_replaceAt_self new hsub) (isNode_of_isExpression hnew)
    rw [replaceAt_node_length]
    refine .node ?_ (isClosed_exchange _ hnode (h.closed (sub?_nil _))) fun other hother => ?_
    · rw [hollowOf_bareOf_exchange hnode hnode' (hollow_bare_replaceAt hsub hexpression hnew)]
      exact h.fits (sub?_nil _)
    · rcases List.mem_append.1 hother with hother | hother
      · exact h.child (by simp [hother])
      rcases List.mem_cons.1 hother with rfl | hother
      · exact ih (h.child (by simp))
      · exact h.child (by simp [hother])

/-! ## Ranks -/

namespace Sound

variable {tree : Tree} {kind : Kind} {children : List Tree}

lemma rank_le (h : (Tree.node kind children).Sound) (hkind : kind.holdsSignature = false) {child : Tree}
    (hchild : child ∈ children) (hnode : child.isNode = true) : child.kind.rank ≤ min kind.rank 2 := by
  have hmem : child.bare.hollow ∈ hollowOf (bareOf children) := by
    rw [hollowOf_eq_map]
    exact List.mem_map_of_mem (bare_mem_bareOf hchild hnode)
  have hle := (h.fits (sub?_nil _)).rank hkind _ hmem (by simp [hnode])
  rwa [rank_hollow _ (by simp [hnode]), kind_bare] at hle

variable {r : Path}

lemma rank_eq_zero (h : tree.Sound) (hrank : tree.kind.rank = 0) (hr : tree.sub? r = some (.node kind children)) :
    kind.rank = 0 := by
  induction r generalizing tree with
  | nil =>
    obtain rfl : tree = .node kind children := by simpa using hr
    exact hrank
  | cons i r ih =>
    obtain ⟨k, row, child, rfl, hchild, hsub⟩ := exists_child_of_sub?_cons hr
    have hmem := List.mem_of_getElem? hchild
    have hk : k.rank = 0 := hrank
    have hholds : k.holdsSignature = false := by cases k <;> first | rfl | simp [Kind.rank] at hk
    have hle := h.rank_le hholds hmem (isNode_of_sub? hsub rfl)
    exact ih (h.child hmem) (by omega) hsub

lemma not_isExpression (h : tree.Sound) (hrank : tree.kind.rank = 0) {part : Tree} (hr : tree.sub? r = some part) :
    part.isExpression = false := by
  by_contra hexpression
  rw [Bool.not_eq_false] at hexpression
  obtain ⟨kind, children, rfl, hkind⟩ := exists_node_of_isExpression hexpression
  have hzero := h.rank_eq_zero hrank hr
  simp [Kind.rank_of_isExpression hkind] at hzero

/-- What is more than an expression stands in a closure if it stands in an expression. -/
lemma exists_closure (h : tree.Sound) (hrank : tree.kind.rank ≤ 1) (hr : tree.sub? r = some (.node kind children))
    (hkind : 2 ≤ kind.rank) : ∃ s i t row, r = s ++ i :: t ∧ tree.sub? s = some (.node .closureExpr row) := by
  induction r generalizing tree with
  | nil =>
    obtain rfl : tree = .node kind children := by simpa using hr
    have hrank : kind.rank ≤ 1 := hrank
    omega
  | cons i r ih =>
    obtain ⟨k, row, child, rfl, hchild, hsub⟩ := exists_child_of_sub?_cons hr
    by_cases hclosure : k = .closureExpr
    · exact ⟨[], i, r, row, rfl, by simp [hclosure]⟩
    have hmem := List.mem_of_getElem? hchild
    have hk : k.rank ≤ 1 := hrank
    have hholds : k.holdsSignature = false := by
      cases k <;> first | rfl | exact absurd rfl hclosure | simp [Kind.rank] at hk
    have hle := h.rank_le hholds hmem (isNode_of_sub? hsub rfl)
    obtain ⟨s, j, t, row', rfl, hs⟩ := ih (h.child hmem) (by omega) hsub
    exact ⟨i :: s, j, t, row', rfl, by rw [sub?_node_cons, hchild]; exact hs⟩

end Sound

/-! ## Tokens between -/

lemma exists_token_of_not_isNode {child : Tree} (h : child.isNode = false) (hsignificant : child.isTriviaLeaf = false) :
    ∃ token, child = .leaf token ∧ token.isTrivia = false := by
  cases child with
  | leaf token => exact ⟨token, rfl, hsignificant⟩
  | node kind children => simp [isNode] at h

/-- A token that nothing but trivia comes after stands behind all nodes in a node. -/
lemma precedes_of_trailing {child : Tree} {r : Path} (hchild : child.isNode = false)
    (hright : ∀ tree ∈ right, tree.isTriviaLeaf = true)
    (hr : (Tree.node kind (left ++ child :: right)).sub? r = some part) (hne : r ≠ []) (hnode : part.isNode = true) :
    Path.Precedes r [left.length] := by
  cases r with
  | nil => exact absurd rfl hne
  | cons i r =>
    rw [sub?_node_cons, Option.bind_eq_some_iff] at hr
    obtain ⟨inner, hinner, hsub⟩ := hr
    have hnode := isNode_of_sub? hsub hnode
    rcases lt_trichotomy i left.length with hlt | rfl | hgt
    · exact .inl hlt
    · obtain rfl : child = inner := by simpa using hinner
      simp [hchild] at hnode
    · rw [List.getElem?_append_right hgt.le, List.getElem?_cons, if_neg (by omega)] at hinner
      have htrivia := hright inner (List.mem_of_getElem? hinner)
      simp [isTriviaLeaf_of_isNode hnode] at htrivia

lemma not_isExpression_of_isSolid (h : tree.bare.hollow.isSolid = true) : tree.isExpression = false := by
  by_contra hexpression
  rw [Bool.not_eq_false] at hexpression
  rw [hollow_bare_of_isExpression hexpression] at h
  simp [isSolid, Kind.rank] at h

/-- What is closed has a significant token. Unless it is a type, the token stands behind all nodes in it. -/
lemma exists_token_of_isSolid {child : Tree} (hsignificant : child.isTriviaLeaf = false)
    (hsolid : child.bare.hollow.isSolid = true) :
    ∃ s token, child.sub? s = some (.leaf token) ∧ token.isTrivia = false ∧
      ∀ r part, child.sub? r = some part → part.isNode = true → r ≠ [] → child.kind.rank ≠ 0 → Path.Precedes r s := by
  cases child with
  | leaf token =>
    refine ⟨[], token, rfl, hsignificant, fun r part hr hnode _ _ => ?_⟩
    simpa [isNode] using isNode_of_sub? hr hnode
  | node kind children =>
    have hkind : kind.isExpression = false := not_isExpression_of_isSolid hsolid
    rw [bare_node, hollow_node hkind, isSolid, Bool.or_eq_true, Bool.and_eq_true, beq_iff_eq, hollowOf_eq_map,
      List.head?_map, List.getLast?_map, Option.any_map, Option.any_map] at hsolid
    rcases hsolid with ⟨hrank, hfirst⟩ | hlast
    · obtain ⟨first, hfirst, hleaf⟩ := (Option.any_eq_true _ _).1 hfirst
      obtain ⟨rest, hrow⟩ := List.head?_eq_some_iff.1 hfirst
      obtain ⟨left, child, right, rfl, hchild, rfl, -⟩ := exists_first_of_bareOf hrow
      obtain ⟨token, rfl, htoken⟩ := exists_token_of_not_isNode (by simpa using hleaf) hchild
      exact ⟨[left.length], token, sub?_node_length.trans (sub?_nil _), htoken, fun r part _ _ _ hne => absurd hrank hne⟩
    · obtain ⟨last, hlast, hleaf⟩ := (Option.any_eq_true _ _).1 hlast
      obtain ⟨front, hrow⟩ := List.getLast?_eq_some_iff.1 hlast
      obtain ⟨left, child, right, rfl, hchild, rfl, hright⟩ := exists_last_of_bareOf hrow
      obtain ⟨token, rfl, htoken⟩ := exists_token_of_not_isNode (by simpa using hleaf) hchild
      exact ⟨[left.length], token, sub?_node_length.trans (sub?_nil _), htoken, fun r part hr hnode hne _ =>
        precedes_of_trailing rfl hright hr hne hnode⟩

/-- What stands before a child stands before the node, or among the children before this one. -/
lemma precedes_concat_iff {j : Nat} :
    Path.Precedes q (o ++ [j]) ↔ Path.Precedes q o ∨ ∃ k r, q = o ++ k :: r ∧ k < j := by
  induction o generalizing q with
  | nil =>
    cases q with
    | nil => simp
    | cons k r => simp
  | cons i o ih =>
    cases q with
    | nil => simp
    | cons k r =>
      simp only [List.cons_append, Path.cons_precedes_cons, ih, List.cons.injEq]
      constructor
      · rintro (hlt | ⟨rfl, h | ⟨l, t, rfl, hl⟩⟩)
        · exact .inl (.inl hlt)
        · exact .inl (.inr ⟨rfl, h⟩)
        · exact .inr ⟨l, t, ⟨rfl, rfl⟩, hl⟩
      · rintro ((hlt | ⟨rfl, h⟩) | ⟨l, t, ⟨rfl, rfl⟩, hl⟩)
        · exact .inl hlt
        · exact .inr ⟨rfl, .inl h⟩
        · exact .inr ⟨rfl, .inr ⟨l, t, rfl, hl⟩⟩

/-- Something that is closed parts a node that comes before it, or that lies properly in it, from what comes after it. -/
lemma exists_between_of_isSolid {before after : List Tree} {next : Tree}
    (ho : tree.sub? o = some (.node kind (before ++ next :: after))) (hrow : bareOf before = front ++ [last])
    (hsolid : last.hollow.isSolid = true) (hpart : tree.sub? q = some part) (hnode : part.isNode = true)
    (hinner : ∀ k r child, q = o ++ k :: r → before[k]? = some child → child.bare = last → r ≠ [] ∧ child.kind.rank ≠ 0)
    (hq : Path.Precedes q (o ++ [before.length])) :
    ∃ x ∈ tree.placedTokens, x.isTrivia = false ∧ Path.Precedes q x.path ∧ Path.Precedes x.path (o ++ [before.length]) := by
  obtain ⟨left, child, right, rfl, hchild, rfl, hright⟩ := exists_last_of_bareOf hrow
  have hplace : tree.sub? (o ++ [left.length]) = some child := by
    rw [sub?_concat, ho]
    simp [Tree.children]
  obtain ⟨s, token, hs, htoken, hbehind⟩ := exists_token_of_isSolid hchild hsolid
  have hx : tree.sub? (o ++ left.length :: s) = some (.leaf token) := by
    rw [← List.singleton_append, ← List.append_assoc, sub?_append, hplace]
    exact hs
  refine ⟨_, mem_placedTokens_of_sub? hx, htoken, ?_, by simp [Placed.path]⟩
  simp only [Placed.path, List.reverse_reverse]
  rcases precedes_concat_iff.1 hq with hq | ⟨k, r, rfl, hk⟩
  · simpa using hq.append [] (left.length :: s)
  rw [sub?_append, ho] at hpart
  rw [Path.append_precedes_append, Path.cons_precedes_cons]
  rcases lt_trichotomy k left.length with hlt | rfl | hgt
  · exact .inl hlt
  · obtain ⟨hne, hrank⟩ := hinner _ r child rfl (by simp) rfl
    exact .inr ⟨rfl, hbehind r part (by simpa [sub?_node_cons] using hpart) hnode hne hrank⟩
  · -- only trivia comes between
    rw [Option.bind_some, sub?_node_cons, Option.bind_eq_some_iff] at hpart
    obtain ⟨inner, hinner, hsub⟩ := hpart
    rw [List.getElem?_append_left hk, List.getElem?_append_right hgt.le, List.getElem?_cons, if_neg (by omega)] at hinner
    have htrivia := hright inner (List.mem_of_getElem? hinner)
    simp [isTriviaLeaf_of_isNode (isNode_of_sub? hsub hnode)] at htrivia

/-! ## Clauses -/

open Rules

variable {closures : Bool} {tree : Tree} {p : Path}

/-- A site is a return clause in a signature. -/
lemma exists_signature (hshaped : tree.Shaped) (h : (voidReturn closures).HasSite tree p) :
    ∃ o kind before clause after, p = o ++ [before.length] ∧
      tree.sub? o = some (.node kind (before ++ .node .returnClause clause :: after)) ∧ kind.rank = 3 := by
  obtain ⟨part, hpart, hvoid, hin⟩ := (hasSite_voidReturn hshaped).1 h
  obtain ⟨clause, rfl⟩ := exists_of_isVoidClause hvoid
  rcases List.eq_nil_or_concat' p with rfl | ⟨o, j, rfl⟩
  · simp [VoidReturn.inClosure?, ownerKind?] at hin
  obtain ⟨kind, children, howner, hchild⟩ := exists_owner_of_concat hpart
  obtain ⟨before, after, rfl, rfl⟩ := exists_append_of_getElem? hchild
  refine ⟨o, kind, before, clause, after, rfl, howner, ?_⟩
  rw [VoidReturn.inClosure?, ownerKind?_concat, howner] at hin
  cases kind <;> first | rfl | simp [Tree.kind] at hin

lemma sub?_of_hasSite (hshaped : tree.Shaped) (h : (voidReturn closures).HasSite tree p) :
    ∃ clause, tree.sub? p = some (.node .returnClause clause) := by
  obtain ⟨o, kind, before, clause, after, rfl, ho, -⟩ := exists_signature hshaped h
  exact ⟨clause, by rw [sub?_concat, ho]; simp [Tree.children]⟩

namespace Sound

variable {kind : Kind} {part : Tree} {q o : Path} (h : tree.Sound)

include h

lemma not_isPrefix_of_isExpression (hshaped : tree.Shaped) (hp : (voidReturn closures).HasSite tree p)
    (hq : tree.sub? q = some part) (hexpression : part.isExpression = true) : ¬ p <+: q := by
  rintro ⟨r, rfl⟩
  obtain ⟨clause, hclause⟩ := sub?_of_hasSite hshaped hp
  rw [sub?_append, hclause] at hq
  simp [(h.sub? hclause).not_isExpression rfl hq] at hexpression

lemma eq_of_isPrefix (hshaped : tree.Shaped) (hp : (voidReturn closures).HasSite tree p)
    (hq : (voidReturn closures).HasSite tree q) (hwithin : p <+: q) : p = q := by
  obtain ⟨clause, hclause⟩ := sub?_of_hasSite hshaped hp
  obtain ⟨o, kind, before, inner, after, rfl, ho, hrank⟩ := exists_signature hshaped hq
  by_contra hne
  -- otherwise the signature stands in a clause as well
  obtain ⟨r, rfl⟩ : p <+: o := by
    rcases List.prefix_concat_iff.1 hwithin with heq | hfore
    · exact absurd heq hne
    · exact hfore
  rw [sub?_append, hclause] at ho
  have hzero := (h.sub? hclause).rank_eq_zero rfl ho
  omega

lemma rank_owner {outer : Kind} {left right children : List Tree}
    (ho : tree.sub? o = some (.node outer (left ++ .node kind children :: right))) (hrank : kind.rank = 3) :
    outer.rank ≠ 3 := by
  have hholds : outer.holdsSignature = true := by
    by_contra hnot
    have hmem : Tree.node kind children ∈ left ++ .node kind children :: right := by simp
    have hle := (h.sub? ho).rank_le (by simpa using hnot) hmem rfl
    simp only [Tree.kind, hrank] at hle
    omega
  cases outer <;> simp [Kind.holdsSignature] at hholds <;> decide

/-- What comes before a clause is closed, in its signature or before it, and there is no other clause in the signature. -/
lemma exists_isSolid {i : Nat} {before clause after : List Tree}
    (ho : tree.sub? (o ++ [i]) = some (.node kind (before ++ .node .returnClause clause :: after)))
    (hrank : kind.rank = 3) :
    ∃ outer left right, tree.sub? o =
        some (.node outer (left ++ .node kind (before ++ .node .returnClause clause :: after) :: right)) ∧ i = left.length ∧
      (∃ front last, last.hollow.isSolid = true ∧
        (bareOf before = front ++ [last] ∨ bareOf before = [] ∧ bareOf left = front ++ [last])) ∧
      ∀ child ∈ before, child.isNode = true → child.kind ≠ .returnClause := by
  obtain ⟨outer, children, howner, hchild⟩ := exists_owner_of_concat ho
  obtain ⟨left, right, rfl, rfl⟩ := exists_append_of_getElem? hchild
  refine ⟨outer, left, right, howner, rfl, ?_⟩
  have hkind : kind.isExpression = false := by cases kind <;> first | rfl | simp [Kind.rank] at hrank
  obtain ⟨⟨last, hlast, hsolid⟩, hsingle⟩ := (h.fits howner).headed (hollowOf (bareOf left)) (.node kind (hollowOf (bareOf
    (before ++ .node .returnClause clause :: after)))) (hollowOf (bareOf right))
    (by simp [hollowOf_eq_map, hollow_node hkind]) rfl hrank
    (hollowOf (bareOf before)) (.node .returnClause (hollowOf (bareOf clause))) (hollowOf (bareOf after))
    (by simp [Tree.children, hollowOf_eq_map, hollow_node (rfl : Kind.returnClause.isExpression = false)]) rfl rfl
  constructor
  · simp only [hollowOf_eq_map, List.getLast?_map] at hlast
    rcases List.eq_nil_or_concat' (bareOf before) with hnil | ⟨front, inner, hrow⟩
    · rw [hnil] at hlast
      obtain ⟨inner, hinner, rfl⟩ : ∃ inner, (bareOf left).getLast? = some inner ∧ inner.hollow = last := by
        simpa using hlast
      obtain ⟨front, hrow⟩ := List.getLast?_eq_some_iff.1 hinner
      exact ⟨front, inner, hsolid, .inr ⟨hnil, hrow⟩⟩
    · obtain rfl : inner.hollow = last := by simpa [hrow] using hlast
      exact ⟨front, inner, hsolid, .inl hrow⟩
  · intro child hchild hnode hclause
    refine hsingle child.bare.hollow ?_ (by simpa using hnode) ?_
    · rw [hollowOf_eq_map]
      exact List.mem_map_of_mem (bare_mem_bareOf hchild hnode)
    · obtain ⟨row, rfl⟩ := exists_node_of_kind hnode hclause
      rw [bare_node, hollow_node rfl]
      rfl

variable (hshaped : tree.Shaped) (hroot : tree.kind.rank ≠ 3) (hp : (voidReturn closures).HasSite tree p)

include hshaped hroot hp

/-- There is a significant token between a node and a clause behind it, unless the node is what comes before the clause or
a part of it that cannot be closed. -/
lemma exists_between_of_isNode (hpart : tree.sub? q = some part) (hnode : part.isNode = true)
    (hinner : ∀ o k r kind row child, q = o ++ k :: r → tree.sub? o = some (.node kind row) → row[k]? = some child →
      child.bare.hollow.isSolid = true → (kind.rank = 3 → child.isNode = true → child.kind ≠ .returnClause) →
        r ≠ [] ∧ child.kind.rank ≠ 0) (hq : Path.Precedes q p) :
    ∃ x ∈ tree.placedTokens, x.isTrivia = false ∧ Path.Precedes q x.path ∧ Path.Precedes x.path p := by
  obtain ⟨o, kind, before, clause, after, rfl, ho, hrank⟩ := exists_signature hshaped hp
  rcases List.eq_nil_or_concat' o with rfl | ⟨o, i, rfl⟩
  · obtain rfl := Option.some.inj ho
    exact absurd hrank hroot
  obtain ⟨outer, left, right, howner, rfl, ⟨front, last, hsolid, hrow⟩, hsingle⟩ := h.exists_isSolid ho hrank
  rcases hrow with hrow | ⟨hnil, hrow⟩
  · refine exists_between_of_isSolid ho hrow hsolid hpart hnode (fun k r child heq hchild hlast => ?_) hq
    refine hinner _ k r _ _ child heq ho ?_ (hlast ▸ hsolid) fun _ => hsingle child (List.mem_of_getElem? hchild)
    rw [List.getElem?_append_left (List.getElem?_eq_some_iff.1 hchild).1, hchild]
  · -- nothing but trivia comes first in the signature
    have hq' : Path.Precedes q (o ++ [left.length]) := by
      rcases precedes_concat_iff.1 hq with hq | ⟨k, r, rfl, hk⟩
      · exact hq
      exfalso
      rw [sub?_append, ho, Option.bind_some, sub?_node_cons, Option.bind_eq_some_iff] at hpart
      obtain ⟨inner, hinner, hsub⟩ := hpart
      rw [List.getElem?_append_left hk] at hinner
      have hmem := bare_mem_bareOf (List.mem_of_getElem? hinner) (isNode_of_sub? hsub hnode)
      simp [hnil] at hmem
    obtain ⟨x, hx, hsignificant, hqx, hxp⟩ := exists_between_of_isSolid howner hrow hsolid hpart hnode
      (fun k r child heq hchild hlast => by
        refine hinner _ k r _ _ child heq howner ?_ (hlast ▸ hsolid) fun hthree => absurd hthree (h.rank_owner howner hrank)
        rw [List.getElem?_append_left (List.getElem?_eq_some_iff.1 hchild).1, hchild]) hq'
    exact ⟨x, hx, hsignificant, hqx, by simpa using hxp.append [] [before.length]⟩

/-- There is a significant token between an expression and a clause behind it. -/
theorem exists_between (hpart : tree.sub? q = some part) (hexpression : part.isExpression = true)
    (hq : Path.Precedes q p) :
    ∃ x ∈ tree.placedTokens, x.isTrivia = false ∧ Path.Precedes q x.path ∧ Path.Precedes x.path p := by
  refine h.exists_between_of_isNode hshaped hroot hp hpart (isNode_of_isExpression hexpression) ?_ hq
  rintro o k r kind row child rfl ho hchild hsolid -
  have hsub : child.sub? r = some part := by
    simpa [sub?_append, ho, sub?_node_cons, hchild] using hpart
  refine ⟨?_, fun hzero => ?_⟩
  · rintro rfl
    obtain rfl := Option.some.inj hsub
    simp [not_isExpression_of_isSolid hsolid] at hexpression
  · have hsound := (h.sub? ho).child (List.mem_of_getElem? hchild)
    simp [hsound.not_isExpression hzero hsub] at hexpression

/-- There is a significant token between two clauses. -/
theorem exists_between_clauses (hq : (voidReturn closures).HasSite tree q) (hqp : Path.Precedes q p) :
    ∃ x ∈ tree.placedTokens, x.isTrivia = false ∧ Path.Precedes q x.path ∧ Path.Precedes x.path p := by
  obtain ⟨o, kind, before, clause, after, rfl, ho, hrank⟩ := exists_signature hshaped hq
  have hpart : tree.sub? (o ++ [before.length]) = some (.node .returnClause clause) := by
    rw [sub?_concat, ho]
    simp [Tree.children]
  refine h.exists_between_of_isNode hshaped hroot hp hpart rfl ?_ hqp
  intro c k r kind' row child heq hc hchild hsolid hsingle
  rcases List.eq_nil_or_concat' r with rfl | ⟨s, j, rfl⟩
  · -- the clause comes right before the other one, in the same signature
    exfalso
    obtain ⟨rfl, rfl⟩ : o = c ∧ before.length = k := by simpa using List.append_inj' heq rfl
    obtain ⟨rfl, rfl⟩ := Tree.node.inj (Option.some.inj (ho.symm.trans hc))
    obtain rfl : .node .returnClause clause = child := by simpa using hchild
    exact hsingle hrank rfl rfl
  · refine ⟨by simp, fun hzero => ?_⟩
    -- otherwise there is a signature in a type
    obtain ⟨rfl, -⟩ : o = c ++ k :: s ∧ [before.length] = [j] := List.append_inj' (by simpa using heq) rfl
    rw [sub?_append, hc, Option.bind_some, sub?_node_cons, hchild, Option.bind_some] at ho
    have hsound := (h.sub? hc).child (List.mem_of_getElem? hchild)
    rw [hsound.rank_eq_zero hzero ho] at hrank
    simp at hrank

end Sound

namespace Sturdy

variable {i : Nat} {row : List Tree}

/-- The first brace of a closure comes before everything else in there. -/
lemma exists_lbrace (h : (Tree.node .closureExpr row).Sturdy) {child : Tree} (hchild : row[i]? = some child)
    (hnode : child.isNode = true) :
    ∃ (j : Nat) (token : Token), row[j]? = some (.leaf token) ∧ token.isTrivia = false ∧ j < i := by
  have hmem := bare_mem_bareOf (List.mem_of_getElem? hchild) hnode
  obtain ⟨first, rest, hrow⟩ := List.exists_cons_of_ne_nil (List.ne_nil_of_mem hmem)
  have hleaf := (h.fits (sub?_nil _)).opening rfl first.hollow (by simp [hrow, hollowOf_eq_map])
  obtain ⟨left, brace, right, rfl, hbrace, rfl, hleft⟩ := exists_first_of_bareOf hrow
  obtain ⟨token, rfl, htoken⟩ := exists_token_of_not_isNode (by simpa using hleaf) hbrace
  refine ⟨left.length, token, by simp, htoken, ?_⟩
  rcases lt_trichotomy i left.length with hlt | rfl | hgt
  · rw [List.getElem?_append_left hlt] at hchild
    have htrivia := hleft child (List.mem_of_getElem? hchild)
    simp [isTriviaLeaf_of_isNode hnode] at htrivia
  · obtain rfl : Tree.leaf token = child := by simpa using hchild
    simp [isNode] at hnode
  · exact hgt

/-- The last brace of a closure comes behind everything else in there. -/
lemma exists_rbrace (h : (Tree.node .closureExpr row).Sturdy) {child : Tree} (hchild : row[i]? = some child)
    (hnode : child.isNode = true) :
    ∃ (j : Nat) (token : Token), row[j]? = some (.leaf token) ∧ token.isTrivia = false ∧ i < j := by
  have hclosed := h.closed (sub?_nil _)
  simp only [isClosed, bne_self_eq_false, Bool.false_or, Option.any_eq_true, Bool.and_eq_true, Bool.not_eq_true',
    beq_iff_eq] at hclosed
  obtain ⟨last, hlast, hleaf, hkind⟩ := hclosed
  obtain ⟨front, rfl⟩ := List.getLast?_eq_some_iff.1 hlast
  cases last with
  | node kind children => simp [isNode] at hleaf
  | leaf token =>
    have hkind : token.kind = .rbrace := hkind
    refine ⟨front.length, token, by simp, by rw [Token.isTrivia, hkind]; rfl, ?_⟩
    obtain ⟨hlt, -⟩ := List.getElem?_eq_some_iff.1 hchild
    have hne : i ≠ front.length := by
      rintro rfl
      obtain rfl : Tree.leaf token = child := by simpa using hchild
      simp [isNode] at hnode
    rw [List.length_append, List.length_singleton] at hlt
    omega

/-- A clause in an expression stands between braces of the expression. -/
theorem exists_braces (h : tree.Sturdy) (hshaped : tree.Shaped) (hrank : tree.kind.rank ≤ 1)
    (hp : (voidReturn closures).HasSite tree p) :
    (∃ x ∈ tree.placedTokens, x.isTrivia = false ∧ Path.Precedes x.path p) ∧
      ∃ y ∈ tree.placedTokens, y.isTrivia = false ∧ Path.Precedes p y.path ∧
        ∀ r, (voidReturn closures).HasSite tree r → ¬ r <+: y.path := by
  obtain ⟨o, kind, before, clause, after, rfl, ho, hkind⟩ := exists_signature hshaped hp
  obtain ⟨s, i, t, row, rfl, hs⟩ := h.exists_closure hrank ho (by omega)
  -- what leads to the clause is a node of the closure
  obtain ⟨child, hchild, hnode⟩ : ∃ child, row[i]? = some child ∧ child.isNode = true := by
    rw [sub?_append, hs, Option.bind_some, sub?_node_cons, Option.bind_eq_some_iff] at ho
    obtain ⟨child, hchild, hsub⟩ := ho
    exact ⟨child, hchild, isNode_of_sub? hsub rfl⟩
  have hplace : ∀ {j : Nat} {token : Token}, row[j]? = some (.leaf token) → tree.sub? (s ++ [j]) = some (.leaf token) := by
    intro j token hj
    rw [sub?_concat, hs]
    exact hj
  obtain ⟨j, token, hj, htoken, hlt⟩ := (h.sub? hs).exists_lbrace hchild hnode
  obtain ⟨k, token', hk, htoken', hgt⟩ := (h.sub? hs).exists_rbrace hchild hnode
  refine ⟨⟨_, mem_placedTokens_of_sub? (hplace hj), htoken, by simp [Placed.path, hlt]⟩,
    _, mem_placedTokens_of_sub? (hplace hk), htoken', by simp [Placed.path, hgt], fun r hr hwithin => ?_⟩
  -- a clause that holds the brace holds the closure
  simp only [Placed.path, List.reverse_reverse] at hwithin
  rcases List.prefix_concat_iff.1 hwithin with rfl | hfore
  · obtain ⟨clause', hclause'⟩ := sub?_of_hasSite hshaped hr
    rw [hplace hk] at hclause'
    simp at hclause'
  · exact h.not_isPrefix_of_isExpression hshaped hr hs rfl hfore

end Sturdy

lemma sound_parse (text : String) : (parse text).Sound := ⟨fun hsub => fits_of_fitted (Grammar.fitted_parse text) hsub⟩

lemma sturdy_parse {text : String} (h : ∀ p part, (parse text).sub? p = some part → part.isClosed = true) :
    (parse text).Sturdy :=
  ⟨sound_parse text, fun hsub => h _ _ hsub⟩

end Tree

end SwiftTidy

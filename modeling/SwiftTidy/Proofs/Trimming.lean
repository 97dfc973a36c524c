import SwiftTidy.Proofs.Outline
import SwiftTidy.Proofs.Relocation
import SwiftTidy.Syntax.Part

/-!
# Trees with trivia and return clauses taken out

One tree is another one trimmed if it has lost nothing but trivia and return clauses of signatures. Nothing else in
it has changed: what is still there is of the same kind, in the same order, and begins as it did.
-/

namespace SwiftTidy.Tree

/-- Whether a child of a node of kind `owner` may be taken out: trivia, or the return clause of a signature. -/
def isSpare (owner : Kind) : Tree → Bool
  | .leaf token => token.isTrivia
  | .node kind _ => kind == .returnClause && (owner == .functionSignature || owner == .closureSignature)

mutual

/-- The second tree is the first one trimmed. -/
def Trims : Tree → Tree → Prop
  | .leaf token, later => later = .leaf token
  | .node kind children, later => ∃ laters, later = .node kind laters ∧ TrimsOf kind children laters

/-- The second row is the first one trimmed, both of them children of nodes of kind `owner`. -/
def TrimsOf (owner : Kind) : List Tree → List Tree → Prop
  | [], laters => laters = []
  | child :: rest, laters =>
    (∃ later more, laters = later :: more ∧ child.Trims later ∧ TrimsOf owner rest more) ∨
      (child.isSpare owner = true ∧ TrimsOf owner rest laters)

end

variable {owner : Kind} {tree later last : Tree} {row laters : List Tree}

lemma trims_leaf {token : Token} : (Tree.leaf token).Trims later ↔ later = .leaf token := by rw [Trims]

variable {children : List Tree} {kind : Kind} {part : Tree} {path : Path}

lemma trims_node :
    (Tree.node kind children).Trims later ↔ ∃ laters, later = .node kind laters ∧ TrimsOf kind children laters := by
  rw [Trims]

lemma Trims.kind_eq (h : tree.Trims later) : later.kind = tree.kind := by
  cases tree with
  | leaf token => rw [trims_leaf.1 h]
  | node kind children =>
    obtain ⟨laters, rfl, -⟩ := trims_node.1 h
    rfl

lemma Trims.isSpare_eq (h : tree.Trims later) (owner : Kind) : later.isSpare owner = tree.isSpare owner := by
  cases tree with
  | leaf token => rw [trims_leaf.1 h]
  | node kind children =>
    obtain ⟨laters, rfl, -⟩ := trims_node.1 h
    rfl

mutual

lemma Trims.refl (tree : Tree) : tree.Trims tree := by
  cases tree with
  | leaf token => exact trims_leaf.2 rfl
  | node kind children => exact trims_node.2 ⟨children, rfl, TrimsOf.refl kind children⟩

lemma TrimsOf.refl (owner : Kind) (row : List Tree) : TrimsOf owner row row := by
  cases row with
  | nil => rw [TrimsOf]
  | cons child rest =>
    rw [TrimsOf]
    exact Or.inl ⟨child, rest, rfl, Trims.refl child, TrimsOf.refl owner rest⟩

end

mutual

lemma Trims.trans {tree later last : Tree} (h : tree.Trims later) (h' : later.Trims last) : tree.Trims last := by
  cases tree with
  | leaf token =>
    rw [trims_leaf] at h
    rwa [h] at h'
  | node kind children =>
    obtain ⟨laters, rfl, hchildren⟩ := trims_node.1 h
    obtain ⟨lasts, rfl, hlasts⟩ := trims_node.1 h'
    exact trims_node.2 ⟨lasts, rfl, hchildren.trans hlasts⟩

lemma TrimsOf.trans {owner : Kind} {row laters lasts : List Tree} (h : TrimsOf owner row laters)
    (h' : TrimsOf owner laters lasts) : TrimsOf owner row lasts := by
  cases row with
  | nil =>
    rw [TrimsOf] at h
    rwa [h] at h'
  | cons child rest =>
    rw [TrimsOf] at h ⊢
    rcases h with ⟨later, more, rfl, hchild, hrest⟩ | ⟨hspare, hrest⟩
    · rw [TrimsOf] at h'
      rcases h' with ⟨last, final, rfl, hlater, hmore⟩ | ⟨hspare, hmore⟩
      · exact Or.inl ⟨last, final, rfl, hchild.trans hlater, hrest.trans hmore⟩
      · exact Or.inr ⟨by rw [← hchild.isSpare_eq, hspare], hrest.trans hmore⟩
    · exact Or.inr ⟨hspare, hrest.trans h'⟩

end

/-! ## Shapes -/

lemma TrimsOf.exists_of_mem (h : TrimsOf owner row laters) (hmem : later ∈ laters) :
    ∃ child ∈ row, child.Trims later := by
  induction row generalizing laters with
  | nil =>
    rw [TrimsOf] at h
    simp [h] at hmem
  | cons child rest ih =>
    rw [TrimsOf] at h
    rcases h with ⟨first, more, rfl, hchild, hrest⟩ | ⟨-, hrest⟩
    · rcases List.mem_cons.1 hmem with rfl | hmem
      · exact ⟨child, by simp, hchild⟩
      · obtain ⟨other, hother, htrims⟩ := ih hrest hmem
        exact ⟨other, by simp [hother], htrims⟩
    · obtain ⟨other, hother, htrims⟩ := ih hrest hmem
      exact ⟨other, by simp [hother], htrims⟩

/-- A row still begins with what it began with, since that is nothing to be taken out. -/
lemma TrimsOf.describes (h : TrimsOf owner row laters) {first : First} (hfirst : first.Describes row) :
    first.Describes laters := by
  cases first with
  | nothing =>
    obtain rfl : row = [] := hfirst
    rw [TrimsOf] at h
    exact h
  | token =>
    obtain ⟨token, rest, rfl, htoken⟩ := hfirst
    rw [TrimsOf] at h
    rcases h with ⟨later, more, rfl, hleaf, -⟩ | ⟨hspare, -⟩
    · obtain rfl := trims_leaf.1 hleaf
      exact ⟨token, more, rfl, htoken⟩
    · simp [isSpare, htoken] at hspare
  | expression =>
    obtain ⟨kind, children, rest, rfl, hkind⟩ := hfirst
    rw [TrimsOf] at h
    rcases h with ⟨later, more, rfl, hnode, -⟩ | ⟨hspare, -⟩
    · obtain ⟨laters, rfl, -⟩ := trims_node.1 hnode
      exact ⟨kind, laters, more, rfl, hkind⟩
    · exfalso
      simp only [isSpare, Bool.and_eq_true, beq_iff_eq] at hspare
      simp [hspare.1, Kind.isExpression] at hkind
  | anything => trivial

lemma Trims.shaped {tree later : Tree} (h : tree.Trims later) (hshaped : tree.Shaped) : later.Shaped := by
  cases tree with
  | leaf token =>
    rw [trims_leaf.1 h]
    exact hshaped
  | node kind children =>
    obtain ⟨laters, rfl, hchildren⟩ := trims_node.1 h
    obtain ⟨first, hbegins, hfirst⟩ := hshaped.begins
    refine shaped_node first hbegins (hchildren.describes hfirst) ?_
    intro later hlater
    obtain ⟨child, hchild, htrims⟩ := hchildren.exists_of_mem hlater
    have hsize := sizeOf_lt_of_mem kind hchild
    exact htrims.shaped (hshaped.child hchild)
termination_by sizeOf tree

/-! ## Taking out parts -/

/-- What is at a path may be taken out. -/
def SpareAt (tree : Tree) (path : Path) : Prop :=
  ∃ q i kind children child, path = q ++ [i] ∧ tree.sub? q = some (.node kind children) ∧
    children[i]? = some child ∧ child.isSpare kind = true

lemma SpareAt.ne_nil (h : tree.SpareAt path) : path ≠ [] := by
  obtain ⟨q, i, -, -, -, rfl, -⟩ := h
  simp

lemma SpareAt.isSpare {i : Nat} (h : (Tree.node kind children).SpareAt [i]) {child : Tree}
    (hchild : children[i]? = some child) : child.isSpare kind = true := by
  obtain ⟨q, j, kind', children', child', hpath, hnode, hchild', hspare⟩ := h
  obtain ⟨rfl, rfl⟩ : q = [] ∧ j = i := by
    cases q with
    | nil => simpa [eq_comm] using hpath
    | cons k q => simp at hpath
  simp only [sub?_nil, Option.some.injEq, Tree.node.injEq] at hnode
  obtain ⟨rfl, rfl⟩ := hnode
  rw [hchild, Option.some.injEq] at hchild'
  rwa [hchild']

lemma SpareAt.of_append {q p : Path} (hne : p ≠ []) (h : tree.SpareAt (q ++ p)) (hpart : tree.sub? q = some part) :
    part.SpareAt p := by
  obtain ⟨r, i, kind, children, child, hpath, hnode, hchild, hspare⟩ := h
  obtain ⟨p, j, rfl⟩ := (List.eq_nil_or_concat' p).resolve_left hne
  rw [← List.append_assoc] at hpath
  obtain ⟨rfl, hj⟩ := List.append_inj' hpath rfl
  obtain rfl : j = i := by simpa using hj
  rw [sub?_append, hpart, Option.bind_some] at hnode
  exact ⟨p, j, kind, children, child, rfl, hnode, hchild, hspare⟩

mutual

lemma trims_prune {gone : List Path} (tree : Tree) (h : ∀ p ∈ gone, p ≠ [] → tree.SpareAt p) :
    tree.Trims (tree.prune gone) := by
  cases tree with
  | leaf token => exact trims_leaf.2 rfl
  | node kind children =>
    refine trims_node.2 ⟨pruneOf gone 0 children, rfl, trimsOf_pruneOf kind 0 children ?_ ?_⟩
    · intro i child hchild hmem
      rw [Nat.zero_add] at hmem
      exact (h [i] hmem (by simp)).isSpare hchild
    · intro i child hchild p hmem hne
      rw [Nat.zero_add, Path.mem_below] at hmem
      exact (h (i :: p) hmem (by simp)).of_append (q := [i]) hne (by rw [sub?_node_cons, hchild]; simp)

lemma trimsOf_pruneOf {gone : List Path} (owner : Kind) (k : Nat) (row : List Tree)
    (hgone : ∀ i child, row[i]? = some child → [k + i] ∈ gone → child.isSpare owner = true)
    (hbelow : ∀ i child, row[i]? = some child → ∀ p ∈ Path.below (k + i) gone, p ≠ [] → child.SpareAt p) :
    TrimsOf owner row (pruneOf gone k row) := by
  cases row with
  | nil => rw [TrimsOf, pruneOf]
  | cons child rest =>
    have hrest := trimsOf_pruneOf owner (k + 1) rest
      (fun i c hc hmem => hgone (i + 1) c (by simpa using hc) (by rwa [Nat.add_right_comm] at hmem))
      (fun i c hc p hmem => hbelow (i + 1) c (by simpa using hc) p (by rwa [Nat.add_right_comm] at hmem))
    rw [TrimsOf, pruneOf, List.contains_eq_mem]
    by_cases hk : [k] ∈ gone
    · simp only [hk, decide_true, if_true]
      exact Or.inr ⟨hgone 0 child rfl (by simpa using hk), hrest⟩
    · simp only [hk, decide_false, Bool.false_eq_true, if_false]
      exact Or.inl ⟨_, _, rfl, trims_prune child (hbelow 0 child rfl), hrest⟩

end

/-! ## Places in a trimmed tree -/

lemma ownerKind?_concat (tree : Tree) (q : Path) (i : Nat) :
    tree.ownerKind? (q ++ [i]) = (tree.sub? q).map Tree.kind := by
  simp [ownerKind?]

lemma spareAt_of_ownerKind? (hpart : tree.sub? path = some part) (howner : tree.ownerKind? path = some owner)
    (hspare : part.isSpare owner = true) : tree.SpareAt path := by
  obtain rfl | ⟨q, i, rfl⟩ := List.eq_nil_or_concat' path
  · simp [ownerKind?] at howner
  · obtain ⟨kind, children, hnode, hchild⟩ := exists_owner_of_concat hpart
    rw [ownerKind?_concat, hnode] at howner
    obtain rfl : kind = owner := by simpa [Tree.kind] using howner
    exact ⟨q, i, kind, children, part, rfl, hnode, hchild, hspare⟩

/-- Where the parts of a tree are in the trimmed one, they are trimmed themselves, in a node of the same kind. -/
structure Trimming (tree later : Tree) (moved : Path → Option Path) : Prop where
  root : moved [] = some []
  part : ∀ {q q' part}, moved q = some q' → tree.sub? q = some part →
    ∃ part', later.sub? q' = some part' ∧ part.Trims part' ∧ later.ownerKind? q' = tree.ownerKind? q

namespace Trimming

variable {moved next : Path → Option Path}

lemma refl (tree : Tree) : tree.Trimming tree some where
  root := rfl
  part h hpart := by
    simp only [Option.some.injEq] at h
    subst h
    exact ⟨_, hpart, Trims.refl _, rfl⟩

lemma trans (h : tree.Trimming later moved) (h' : later.Trimming last next) :
    tree.Trimming last fun p => (moved p).bind next where
  root := by simp [h.root, h'.root]
  part hq hpart := by
    obtain ⟨q₁, hq₁, hq₂⟩ := Option.bind_eq_some_iff.1 hq
    obtain ⟨part₁, hpart₁, htrims₁, howner₁⟩ := h.part hq₁ hpart
    obtain ⟨part₂, hpart₂, htrims₂, howner₂⟩ := h'.part hq₂ hpart₁
    exact ⟨part₂, hpart₂, htrims₁.trans htrims₂, howner₂.trans howner₁⟩

lemma trims (h : tree.Trimming later moved) : tree.Trims later := by
  obtain ⟨part, hpart, htrims, -⟩ := h.part h.root (sub?_nil tree)
  rw [sub?_nil, Option.some.injEq] at hpart
  rwa [hpart]

variable {gone : List Path} {q q' : Path}

lemma spareAt (h : tree.Trimming later moved) (hq : moved q = some q') (hspare : tree.SpareAt q) :
    later.SpareAt q' := by
  obtain ⟨r, i, kind, children, child, rfl, hnode, hchild, hspare⟩ := hspare
  have hpart : tree.sub? (r ++ [i]) = some child := by
    rw [sub?_concat, hnode]
    exact hchild
  obtain ⟨child', hchild', htrims, howner⟩ := h.part hq hpart
  rw [ownerKind?_concat, hnode] at howner
  exact spareAt_of_ownerKind? hchild' howner (by rw [htrims.isSpare_eq]; exact hspare)

lemma sub?_prune (hnodup : gone.Nodup) {part : Tree} (hq : Path.afterPruning gone q = some q')
    (hpart : tree.sub? q = some part) : (tree.prune gone).sub? q' = some (part.prune (Path.inside q gone)) := by
  have hmem : Part.mk q' (part.prune (Path.inside q gone)) ∈ (tree.prune gone).parts := by
    rw [parts_prune hnodup, List.mem_filterMap]
    exact ⟨⟨q, part⟩, mem_parts.2 hpart, by simp [Part.pruned?, hq]⟩
  exact mem_parts.1 hmem

lemma afterPruning_concat {i : Nat} (h : Path.afterPruning gone (q ++ [i]) = some q') :
    ∃ r j, q' = r ++ [j] ∧ Path.afterPruning gone q = some r := by
  induction q generalizing gone q' with
  | nil =>
    rw [List.nil_append, Path.afterPruning_cons] at h
    split at h
    · simp at h
    · simp only [Path.afterPruning, Option.map_some, Option.some.injEq] at h
      exact ⟨[], _, by rw [← h]; rfl, rfl⟩
  | cons k q ih =>
    rw [List.cons_append, Path.afterPruning_cons] at h
    rw [Path.afterPruning_cons]
    split at h
    · simp at h
    · next hk =>
      obtain ⟨rest, hrest, rfl⟩ := Option.map_eq_some_iff.1 h
      obtain ⟨r, j, rfl, hr⟩ := ih hrest
      exact ⟨(k - Path.shift gone k) :: r, j, rfl, by simp [hk, hr]⟩

lemma kind_prune (gone : List Path) (tree : Tree) : (tree.prune gone).kind = tree.kind := by
  cases tree <;> rfl

lemma prune (hnodup : gone.Nodup) (h : ∀ p ∈ gone, p ≠ [] → tree.SpareAt p) :
    tree.Trimming (tree.prune gone) (Path.afterPruning gone) where
  root := rfl
  part {q q' part} hq hpart := by
    refine ⟨_, sub?_prune hnodup hq hpart, trims_prune part ?_, ?_⟩
    · intro p hp hne
      rw [Path.mem_inside] at hp
      exact (h _ hp (by simp [hne])).of_append hne hpart
    · obtain rfl | ⟨r, i, rfl⟩ := List.eq_nil_or_concat' q
      · simp only [Path.afterPruning, Option.some.injEq] at hq
        subst hq
        rfl
      · obtain ⟨r', j, rfl, hr⟩ := afterPruning_concat hq
        rw [sub?_append, Option.bind_eq_some_iff] at hpart
        obtain ⟨node, hnode, -⟩ := hpart
        rw [ownerKind?_concat, ownerKind?_concat, sub?_prune hnodup hr hnode, hnode, Option.map_some, Option.map_some,
          kind_prune]

end Trimming

end SwiftTidy.Tree

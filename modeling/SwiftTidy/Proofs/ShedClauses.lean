import Mathlib.Data.List.DropRight
import SwiftTidy.Proofs.BareSites
import SwiftTidy.Proofs.ClauseSweeps
import SwiftTidy.Proofs.Signatures

/-!
# Texts without their clauses

Return clauses are taken out of a tree, and the text that is left is read again. Where every clause
is sheltered by its signature, which ends without it and which nothing goes on with, the reader
finds the tree without the clauses (`bare_reread_voidReturn`), and in that tree there is no clause
any more that says nothing.
-/

namespace SwiftTidy

open Grammar

namespace Tree

/-! ## Trees that shed clauses -/

/-- The children before a child, up to the last one that is no trivia. -/
def solidBefore (children : List Tree) (i : Nat) : List Tree :=
  (children.take i).rdropWhile isTriviaLeaf

/-- The trivia directly before a child. -/
def pauseBefore (children : List Tree) (i : Nat) : List Token :=
  leavesOf ((children.take i).rtakeWhile isTriviaLeaf)

/-- The first return clause that is taken out of a row of children, with its number. -/
def goneClause? (gone : List Path) (children : List Tree) : Option (Nat × List Tree) :=
  (List.range children.length).findSome? fun i : Nat =>
    match children[i]? with
    | some (.node .returnClause clause) => if gone.contains [i] then some (i, clause) else none
    | _ => none

mutual

/-- A tree of which the return clauses at some paths are left out. -/
def shedding (gone : List Path) : Tree → Graft
  | .leaf token => .leaf token
  | .node kind children =>
    let inner := sheddingOf gone 0 children
    match goneClause? gone children with
    | some (i, clause) =>
      .shed kind (inner.take (solidBefore children i).length) (pauseBefore children i) clause
        (inner.drop (i + 1))
    | none => .node kind inner

/-- Children in a row, the first of which is number `i`. -/
def sheddingOf (gone : List Path) (i : Nat) : List Tree → List Graft
  | [] => []
  | tree :: rest => shedding (Path.below i gone) tree :: sheddingOf gone (i + 1) rest

end

/-- Whether there is a return clause at a path whose signature can do without it. Behind the tree
come the given tokens. -/
def isSheltered : Tree → List Token → Path → Bool
  | .node kind children, r, [i] =>
    children[i]?.any (fun child => child.isNode && child.kind == .returnClause) &&
      Grammar.parts kind (solidBefore children i) (pauseBefore children i)
        (children.drop (i + 1)) r
  | .node _ children, r, i :: path =>
    children[i]?.any fun child => child.isSheltered (leavesOf (children.drop (i + 1)) ++ r) path
  | _, _, _ => false

/-- All clauses at some paths are sheltered. -/
def Sheltered (gone : List Path) (tree : Tree) (r : List Token) : Prop :=
  ∀ p ∈ gone, p ≠ [] → tree.isSheltered r p = true

variable {gone : List Path} {kind : Kind} {children : List Tree} {clause : List Tree}
  {r : List Token} {i : Nat}

lemma solidBefore_append (children : List Tree) (i : Nat) :
    solidBefore children i ++ (pauseBefore children i).map .leaf = children.take i := by
  have hleaf {row : List Tree} (h : ∀ tree ∈ row, tree.isTriviaLeaf = true) :
      (leavesOf row).map .leaf = row := by
    induction row with
    | nil => rfl
    | cons tree row ih =>
      cases tree with
      | leaf token => simpa using ih fun tree htree => h tree (List.mem_cons_of_mem _ htree)
      | node kind children => cases h _ List.mem_cons_self
  rw [solidBefore, pauseBefore, hleaf fun _ => List.mem_rtakeWhile_imp,
    List.rdropWhile_append_rtakeWhile]

lemma bareOf_pauseBefore (children : List Tree) (i : Nat) :
    bareOf ((pauseBefore children i).map .leaf) = [] := by
  have htrivia {row : List Tree} (h : ∀ tree ∈ row, tree.isTriviaLeaf = true) :
      Token.significant (leavesOf row) = [] := by
    rw [← leavesOf_bareOf, bareOf_eq_map, List.filter_eq_nil_iff.2 (by simpa using h)]
    rfl
  rw [bareOf_map_leaf, pauseBefore, htrivia fun _ => List.mem_rtakeWhile_imp, List.map_nil]

lemma take_length_solidBefore (children : List Tree) (i : Nat) :
    children.take (solidBefore children i).length = solidBefore children i :=
  (List.prefix_iff_eq_take.1 ((List.rdropWhile_prefix _ _).trans (List.take_prefix i _))).symm

lemma goneClause?_eq_some (h : goneClause? gone children = some (i, clause)) :
    children[i]? = some (.node .returnClause clause) ∧ [i] ∈ gone := by
  obtain ⟨j, -, hj⟩ := List.exists_of_findSome?_eq_some h
  split at hj
  next hchild =>
    obtain ⟨hgone, heq⟩ := Option.ite_none_right_eq_some.1 hj
    simp only [Option.some.injEq, Prod.mk.injEq] at heq
    obtain ⟨rfl, rfl⟩ := heq
    exact ⟨hchild, List.contains_iff_mem.1 hgone⟩
  next => cases hj

lemma eq_of_goneClause (h : goneClause? gone children = some (i, clause)) :
    children = solidBefore children i ++ ((pauseBefore children i).map .leaf ++
      .node .returnClause clause :: children.drop (i + 1)) := by
  obtain ⟨hlt, hchild⟩ := List.getElem?_eq_some_iff.1 (goneClause?_eq_some h).1
  rw [← List.append_assoc, solidBefore_append, ← hchild, ← List.drop_eq_getElem_cons hlt,
    List.take_append_drop]

lemma drop_sheddingOf (k n : Nat) (trees : List Tree) :
    (sheddingOf gone k trees).drop n = sheddingOf gone (k + n) (trees.drop n) := by
  induction n generalizing k trees with
  | zero => rfl
  | succ n ih =>
    cases trees with
    | nil => rfl
    | cons tree rest => rw [sheddingOf, List.drop_succ_cons, ih, List.drop_succ_cons,
        Nat.add_right_comm, Nat.add_assoc]

lemma take_sheddingOf (k n : Nat) (trees : List Tree) :
    (sheddingOf gone k trees).take n = sheddingOf gone k (trees.take n) := by
  induction n generalizing k trees with
  | zero => rfl
  | succ n ih =>
    cases trees with
    | nil => rfl
    | cons tree rest => rw [sheddingOf, List.take_succ_cons, ih, List.take_succ_cons, sheddingOf]

lemma getElem?_sheddingOf (k : Nat) (trees : List Tree) (j : Nat) :
    (sheddingOf gone k trees)[j]? = trees[j]?.map (shedding (Path.below (k + j) gone)) := by
  induction trees generalizing k j with
  | nil => rfl
  | cons tree rest ih =>
    cases j with
    | zero => rfl
    | succ j => rw [sheddingOf, List.getElem?_cons_succ, ih, List.getElem?_cons_succ,
        Nat.add_right_comm, Nat.add_assoc]

lemma shedding_of_goneClause (h : goneClause? gone children = some (i, clause)) :
    shedding gone (.node kind children) =
      .shed kind (sheddingOf gone 0 (solidBefore children i)) (pauseBefore children i) clause
        (sheddingOf gone (i + 1) (children.drop (i + 1))) := by
  simp only [shedding, h]
  rw [take_sheddingOf, take_length_solidBefore, drop_sheddingOf, Nat.zero_add]

lemma shedding_of_none (h : goneClause? gone children = none) :
    shedding gone (.node kind children) = .node kind (sheddingOf gone 0 children) := by
  simp only [shedding, h]

mutual

lemma tree_shedding (gone : List Path) (tree : Tree) : (shedding gone tree).tree false = tree := by
  cases tree with
  | leaf token => rfl
  | node kind children =>
    have hchildren := treesOf_sheddingOf gone 0 children
    rw [shedding]
    split
    next i clause hclause =>
      have hrow := eq_of_goneClause hclause
      rw [Graft.tree, Graft.treesOf_take, Graft.treesOf_drop, hchildren, take_length_solidBefore,
        cond_false, List.append_assoc, List.singleton_append, ← hrow]
    next => rw [Graft.tree, hchildren]

lemma treesOf_sheddingOf (gone : List Path) (i : Nat) (trees : List Tree) :
    Graft.treesOf false (sheddingOf gone i trees) = trees := by
  cases trees with
  | nil => rfl
  | cons tree rest =>
    rw [sheddingOf, Graft.treesOf, tree_shedding _ tree, treesOf_sheddingOf gone (i + 1) rest]

end

/-! ## What the shelter gives -/

namespace Sheltered

variable (h : Sheltered gone (.node kind children) r)

include h

lemma child {child : Tree} (hchild : children[i]? = some child) :
    Sheltered (Path.below i gone) child (leavesOf (children.drop (i + 1)) ++ r) := by
  intro p hp hne
  have hpath := h _ (Path.mem_below.1 hp) (List.cons_ne_nil _ _)
  cases p with
  | nil => exact absurd rfl hne
  | cons j p =>
    change children[i]?.any _ = true at hpath
    rwa [hchild] at hpath

lemma exists_clause (hi : [i] ∈ gone) : ∃ clause, children[i]? = some (.node .returnClause clause) ∧
    Grammar.parts kind (solidBefore children i) (pauseBefore children i)
      (children.drop (i + 1)) r = true := by
  have hpath := h _ hi (List.cons_ne_nil _ _)
  rw [isSheltered, Bool.and_eq_true] at hpath
  obtain ⟨child, hchild, hclause⟩ := (Option.any_eq_true _ _).1 hpath.1
  cases child with
  | leaf token => cases hclause
  | node other clause =>
    obtain rfl : other = .returnClause := by simpa [isNode, Tree.kind] using hclause
    exact ⟨clause, hchild, hpath.2⟩

/-- A signature has only tokens behind its clause, so no second clause. -/
lemma not_mem_of_lt {j : Nat} (hi : [i] ∈ gone) (hlt : i < j) : [j] ∉ gone := by
  intro hj
  obtain ⟨_, -, hparts⟩ := h.exists_clause hi
  obtain ⟨clause, hclause, -⟩ := h.exists_clause hj
  have hmem : Tree.node .returnClause clause ∈ children.drop (i + 1) := by
    refine List.mem_of_getElem? (i := j - (i + 1)) ?_
    rw [List.getElem?_drop, Nat.add_sub_cancel' hlt, hclause]
  have htail := (Bool.and_eq_true_iff.1 hparts).2
  cases hkind : kind == .functionSignature with
  | true =>
    rw [hkind, cond_true, Bool.and_eq_true, List.isEmpty_iff] at htail
    rw [htail.1] at hmem
    cases hmem
  | false =>
    rw [hkind, cond_false, Bool.and_eq_true, List.all_eq_true] at htail
    cases htail.2 _ hmem

lemma eq_of_mem {j : Nat} (hi : [i] ∈ gone) (hj : [j] ∈ gone) : i = j := by
  obtain hlt | heq | hlt := Nat.lt_trichotomy i j
  · exact absurd hj (h.not_mem_of_lt hi hlt)
  · exact heq
  · exact absurd hi (h.not_mem_of_lt hj hlt)

lemma not_mem_of_none (hnone : goneClause? gone children = none) (i : Nat) : [i] ∉ gone := by
  intro hi
  obtain ⟨clause, hclause, -⟩ := h.exists_clause hi
  have hmem : i ∈ List.range children.length :=
    List.mem_range.2 (List.getElem?_eq_some_iff.1 hclause).1
  have hall := List.findSome?_eq_none_iff.1 hnone i hmem
  rw [hclause] at hall
  simp [hi] at hall

end Sheltered

/-- Trees that shed sheltered clauses fit. -/
lemma Sheltered.fits (seated inHead : Bool) (tree : Tree) {gone : List Path} {r : List Token}
    (h : Sheltered gone tree r) : (shedding gone tree).Fits seated inHead r := by
  cases tree with
  | leaf token => trivial
  | node kind children =>
    have hall : Graft.FitsOf kind.seats (kind.heads inHead) (sheddingOf gone 0 children) r := by
      refine Graft.fitsOf_of_getElem? fun i graft hi => ?_
      rw [getElem?_sheddingOf, Nat.zero_add] at hi
      obtain ⟨child, hchild, rfl⟩ := Option.map_eq_some_iff.1 hi
      have hsize := sizeOf_lt_of_mem kind (List.mem_of_getElem? hchild)
      rw [Graft.treesOf_drop, treesOf_sheddingOf]
      exact Sheltered.fits _ _ child (h.child hchild)
    cases hclause : goneClause? gone children with
    | none =>
      rw [shedding_of_none hclause]
      exact hall
    | some found =>
      obtain ⟨i, clause⟩ := found
      obtain ⟨hchild, hi⟩ := goneClause?_eq_some hclause
      obtain ⟨_, -, hparts⟩ := h.exists_clause hi
      have hrow := eq_of_goneClause hclause
      rw [shedding_of_goneClause hclause, Graft.Fits, treesOf_sheddingOf, treesOf_sheddingOf]
      refine ⟨?_, ?_, hparts⟩
      · rw [← List.take_append_drop (solidBefore children i).length (sheddingOf gone 0 children),
          Graft.fitsOf_append, take_sheddingOf, take_length_solidBefore, Graft.treesOf_drop,
          treesOf_sheddingOf] at hall
        have hdrop : children.drop (solidBefore children i).length =
            (pauseBefore children i).map .leaf ++
              .node .returnClause clause :: children.drop (i + 1) := by
          have hdropped := congrArg (List.drop (solidBefore children i).length) hrow
          rwa [List.drop_left] at hdropped
        rw [hdrop] at hall
        simpa using hall.1
      · rw [← List.take_append_drop (i + 1) (sheddingOf gone 0 children), Graft.fitsOf_append,
          drop_sheddingOf, Nat.zero_add] at hall
        exact hall.2
termination_by sizeOf tree

/-- Where no child of a row is taken out, it is enough to look at them one by one. -/
lemma bareOf_sheddingOf (gone : List Path) (k : Nat) (trees : List Tree)
    (h : ∀ (j : Nat) child, trees[j]? = some child →
      ((shedding (Path.below (k + j) gone) child).tree true).bare =
        (child.prune (Path.below (k + j) gone)).bare)
    (hgone : ∀ j < trees.length, [k + j] ∉ gone) :
    bareOf (Graft.treesOf true (sheddingOf gone k trees)) = bareOf (pruneOf gone k trees) := by
  induction trees generalizing k with
  | nil => rfl
  | cons tree rest ih =>
    have hfirst := h 0 tree rfl
    have hrest := ih (k := k + 1)
      (fun j child hchild => by
        rw [Nat.add_right_comm, Nat.add_assoc]
        exact h (j + 1) child hchild)
      fun j hj => by
        rw [Nat.add_right_comm, Nat.add_assoc]
        exact hgone (j + 1) (Nat.succ_lt_succ hj)
    have hstays : gone.contains [k] = false := by simpa using hgone 0 (Nat.succ_pos _)
    rw [sheddingOf, Graft.treesOf, pruneOf, hstays, if_neg Bool.false_ne_true]
    cases tree with
    | leaf token =>
      rw [shedding, Graft.tree, prune, bareOf_leaf_cons, bareOf_leaf_cons, hrest]
    | node kind children =>
      obtain ⟨later, hlater⟩ : ∃ later,
          (shedding (Path.below k gone) (.node kind children)).tree true = .node kind later := by
        rw [shedding]
        split <;> exact ⟨_, rfl⟩
      rw [Nat.add_zero, hlater, prune, bare_node, bare_node] at hfirst
      rw [hlater, prune, bareOf_node_cons, bareOf_node_cons, hrest, Tree.node.inj hfirst |>.2]

/-- Without trivia, what a tree sheds is what is taken out of it. -/
lemma Sheltered.bare_eq (tree : Tree) {gone : List Path} {r : List Token}
    (h : Sheltered gone tree r) :
    ((shedding gone tree).tree true).bare = (tree.prune gone).bare := by
  cases tree with
  | leaf token => rfl
  | node kind children =>
    have hall (j : Nat) (child : Tree) (hchild : children[j]? = some child) :
        ((shedding (Path.below j gone) child).tree true).bare =
          (child.prune (Path.below j gone)).bare := by
      have hsize := sizeOf_lt_of_mem kind (List.mem_of_getElem? hchild)
      exact Sheltered.bare_eq child (h.child hchild)
    cases hclause : goneClause? gone children with
    | none =>
      rw [shedding_of_none hclause, Graft.tree, prune, bare_node, bare_node, bareOf_sheddingOf _ _ _
        (fun j child hchild => by rw [Nat.zero_add]; exact hall j child hchild)
        fun j _ => h.not_mem_of_none hclause _]
    | some found =>
      obtain ⟨i, clause⟩ := found
      obtain ⟨hchild, hi⟩ := goneClause?_eq_some hclause
      have hlt : i < children.length := (List.getElem?_eq_some_iff.1 hchild).1
      have hlength : (solidBefore children i).length + (pauseBefore children i).length = i := by
        have hrow := congrArg List.length (solidBefore_append children i)
        rw [List.length_append, List.length_map, List.length_take] at hrow
        omega
      have hfront := bareOf_sheddingOf gone 0 (solidBefore children i)
        (fun j child hj => by
          rw [Nat.zero_add]
          rw [← take_length_solidBefore, List.getElem?_take] at hj
          exact hall j child (Option.ite_none_right_eq_some.1 hj).2)
        fun j hj hmem => by
          have := h.eq_of_mem hi hmem
          omega
      have hpause : bareOf (pruneOf gone (solidBefore children i).length
          ((pauseBefore children i).map .leaf)) = [] := by
        have hsame := bareOf_sheddingOf gone (solidBefore children i).length
          ((pauseBefore children i).map .leaf)
          (fun j child hj => by
            rw [List.getElem?_map] at hj
            obtain ⟨token, -, rfl⟩ := Option.map_eq_some_iff.1 hj
            rfl)
          fun j hj hmem => by
            have := h.eq_of_mem hi hmem
            rw [List.length_map] at hj
            omega
        have hleaves (k : Nat) (tokens : List Token) :
            sheddingOf gone k (tokens.map .leaf) = tokens.map .leaf := by
          induction tokens generalizing k with
          | nil => rfl
          | cons token tokens ih => rw [List.map_cons, sheddingOf, ih]; rfl
        rw [← hsame, hleaves, Graft.treesOf_map_leaf, bareOf_pauseBefore]
      have htail := bareOf_sheddingOf gone (i + 1) (children.drop (i + 1))
        (fun j child hj => by
          rw [List.getElem?_drop] at hj
          exact hall _ child hj)
        fun j _ hmem => by
          have := h.eq_of_mem hi hmem
          omega
      have hcut : pruneOf gone i (.node .returnClause clause :: children.drop (i + 1)) =
          pruneOf gone (i + 1) (children.drop (i + 1)) := by
        rw [pruneOf, if_pos (List.contains_iff_mem.2 hi)]
      have hprune : bareOf (pruneOf gone 0 children) =
          bareOf (pruneOf gone 0 (solidBefore children i)) ++
            bareOf (pruneOf gone (i + 1) (children.drop (i + 1))) := by
        conv_lhs => rw [eq_of_goneClause hclause]
        rw [pruneOf_append, pruneOf_append, Nat.zero_add, List.length_map, hlength, bareOf_append,
          bareOf_append, hpause, List.nil_append, hcut]
      rw [shedding_of_goneClause hclause, Graft.tree, prune, bare_node, bare_node, cond_true,
        List.nil_append, bareOf_append, hfront, htail, hprune]
termination_by sizeOf tree

end Tree

/-! ## The corrected text -/

namespace Rules

open SwiftTidy.Tree Token

variable {closures : Bool} {text : String} {tree : Tree} {p : Path}

lemma mem_clauses_iff (hshaped : tree.Shaped) :
    p ∈ clauses closures tree ↔ (voidReturn closures).HasSite tree p := by
  refine ⟨hasSite_of_mem_clauses, fun h => List.mem_filter.2 ⟨?_, by simpa using h⟩⟩
  obtain ⟨kind, children, hpart, -⟩ := kind_of_hasSite (.inr ⟨closures, rfl⟩) hshaped h
  exact mem_nodePaths.2 ⟨_, _, hpart⟩

lemma nodup_clauses (closures : Bool) (tree : Tree) : (clauses closures tree).Nodup :=
  (nodup_nodePaths tree).filter _

lemma trimming_clauses (closures : Bool) (tree : Tree) :
    tree.Trimming (tree.prune (clauses closures tree))
      (Path.afterPruning (clauses closures tree)) :=
  Trimming.prune (nodup_clauses closures tree) fun _ hp _ => spareAt_of_mem_clauses hp

/-- Without the clauses that say nothing, a tree has none. -/
lemma not_hasSite_prune (hshaped : tree.Shaped) (q : Path) :
    ¬ (voidReturn closures).HasSite (tree.prune (clauses closures tree)) q := by
  intro hsite
  have hrule : (voidReturn closures).IsBuiltin := .inr ⟨closures, rfl⟩
  have htrimming := trimming_clauses closures tree
  have hshaped' := htrimming.trims.shaped hshaped
  obtain ⟨kind, children, hpart, -⟩ := kind_of_hasSite hrule hshaped' hsite
  have hmem := mem_nodePaths.2 ⟨_, _, hpart⟩
  rw [(Relocation.prune (nodup_clauses closures tree) tree).nodes] at hmem
  obtain ⟨p, hp, hmoved⟩ := List.mem_filterMap.1 hmem
  obtain ⟨_, _, hold⟩ := mem_nodePaths.1 hp
  obtain ⟨_, hlater, htrims, howner⟩ := htrimming.part hmoved hold
  have hfirst := (hasSite_of_echo hrule hshaped hshaped' hold hlater htrims.echo howner).1 hsite
  have hclause := (mem_clauses_iff hshaped).2 hfirst
  rw [Path.afterPruning_eq_none_iff.2
    ⟨p, hclause, (spareAt_of_mem_clauses hclause).ne_nil, List.prefix_rfl⟩] at hmoved
  cases hmoved

/-- A pass takes out the clauses, and besides only blanks. -/
lemma significant_corrected (closures : Bool) (text : String) :
    significant ((voidReturn closures).corrected text []).leaves =
      significant ((parse text).prune (clauses closures (parse text))).leaves := by
  have hshaped := shaped_parse text
  obtain ⟨done, pass, hdone, h, hcorrect⟩ := cleared_correct closures (Source.ofText text) []
  obtain ⟨blanks, hblanks, hleaves⟩ := h.exists_blanks
  have hsame : ∀ p, p ∈ done ↔ p ∈ clauses closures (parse text) := fun p => by
    rw [hdone, mem_clauses_iff hshaped, ← Rule.mem_sitePaths_nil (.inr ⟨closures, rfl⟩) hshaped]
    rfl
  have hprune : ((parse text).prune (clauses closures (parse text))).leaves =
      ((parse text).tokensOutside (clauses closures (parse text))).map Placed.token := by
    rw [(Relocation.prune (nodup_clauses closures _) _).leaves_eq, tokensOutside]
    congr 1
    refine List.filter_congr fun placed _ => ?_
    rw [Bool.eq_iff_iff, ← Bool.not_eq_false, Option.isSome_eq_false_iff, Option.isNone_iff_eq_none,
      Path.afterPruning_eq_none_iff, List.all_eq_true]
    simp only [Bool.not_eq_true', ← Bool.not_eq_true, List.isPrefixOf_iff_prefix]
    constructor
    · intro hstays p hp hwithin
      exact hstays ⟨p, hp, (spareAt_of_mem_clauses hp).ne_nil, hwithin⟩
    · rintro hout ⟨p, hp, -, hwithin⟩
      exact hout p hp hwithin
  rw [Rule.corrected, hcorrect, hleaves, hprune, Source.ofText, ← tokensOutside_congr hsame,
    significant, significant, List.filter_map, List.filter_map, List.filter_filter]
  congr 1
  refine List.filter_congr fun placed _ => ?_
  rw [Bool.and_eq_left_iff_imp]
  intro hsolid
  refine decide_eq_true fun hblank => ?_
  have htrivia := Placed.isTrivia_of_isBlank (hblanks placed hblank).1
  simp [Placed.isTrivia] at htrivia hsolid
  simp [htrivia] at hsolid

/-- The tree of a text that sheds the clauses that say nothing. -/
def remainder (closures : Bool) (text : String) : Graft :=
  shedding (clauses closures (parse text)) (parse text)

/-- The tokens of a corrected tree, blanks aside, are those of its text. -/
def ComesBack (rule : Rule) (text : String) : Prop :=
  nonBlank (tokensOf (rule.corrected text []).text) = nonBlank (rule.corrected text []).leaves

instance (rule : Rule) (text : String) : Decidable (ComesBack rule text) :=
  inferInstanceAs (Decidable (_ = _))

/-- Return clauses can be taken out of a text so that a reader does not notice. The other tokens
come back, with pauses where there would be some without the clauses. Every clause is sheltered by
its signature, and no question about tokens further on gets another answer. -/
structure Separable (closures : Bool) (text : String) : Prop where
  back : ComesBack (voidReturn closures) text
  paced : List.Forall₂ SameGap (gaps (tokensOf ((voidReturn closures).corrected text []).text))
    (gaps ((remainder closures text).tree true).leaves)
  sheltered : ∀ path ∈ clauses closures (parse text), (parse text).isSheltered [] path = true
  steady : Graft.Steady (remainder closures text).segments

lemma separable_iff : Separable closures text ↔
    ComesBack (voidReturn closures) text ∧
    List.Forall₂ SameGap (gaps (tokensOf ((voidReturn closures).corrected text []).text))
      (gaps ((remainder closures text).tree true).leaves) ∧
    (∀ path ∈ clauses closures (parse text), (parse text).isSheltered [] path = true) ∧
    Graft.Steady (remainder closures text).segments :=
  ⟨fun h => ⟨h.back, h.paced, h.sheltered, h.steady⟩, fun h => ⟨h.1, h.2.1, h.2.2.1, h.2.2.2⟩⟩

instance (closures : Bool) (text : String) : Decidable (Separable closures text) :=
  decidable_of_iff' _ separable_iff

namespace Separable

variable (h : Separable closures text)

include h

/-- The rest of the tree is what a reader makes of its tokens. -/
lemma parseTokens_remainder : parseTokens ((remainder closures text).tree true).leaves =
    (remainder closures text).tree true := by
  have hshelter : Sheltered (clauses closures (parse text)) (parse text) [] :=
    fun p hp _ => h.sheltered p hp
  have hnode : remainder closures text =
      .node .sourceFile (sheddingOf (clauses closures (parse text)) 0 (parse text).children) := by
    cases hclause : goneClause? (clauses closures (parse text)) (parse text).children with
    | none => exact shedding_of_none hclause
    | some found =>
      obtain ⟨_, -, hparts⟩ := hshelter.exists_clause (goneClause?_eq_some hclause).2
      cases hparts
  have hfits := hshelter.fits true false
  have hsteady := h.steady
  rw [← remainder, hnode] at hfits
  rw [hnode] at hsteady ⊢
  exact parseTokens_graft (treesOf_sheddingOf _ _ _) hfits hsteady

/-- A reader of the corrected text finds the tree without the clauses. -/
lemma bare_reread : (parse ((voidReturn closures).corrected text []).text).bare =
    ((parse text).prune (clauses closures (parse text))).bare := by
  have hshelter : Sheltered (clauses closures (parse text)) (parse text) [] :=
    fun p hp _ => h.sheltered p hp
  have hbare : ((remainder closures text).tree true).bare = _ := hshelter.bare_eq
  have hsolid (row : List Token) : significant row = significant (nonBlank row) := by
    rw [significant, significant, nonBlank, List.filter_filter]
    refine List.filter_congr fun token _ => ?_
    rw [Token.isTrivia, Token.isBlank]
    cases token.kind <;> rfl
  have hleaves {tree : Tree} (hnode : tree.isNode = true) :
      significant tree.leaves = tree.bare.leaves := by
    cases tree with
    | leaf token => cases hnode
    | node kind children => exact (leavesOf_bareOf children).symm
  have halike : Alike (tokensOf ((voidReturn closures).corrected text []).text)
      ((remainder closures text).tree true).leaves := by
    refine ⟨?_, h.paced⟩
    rw [hsolid, h.back, ← hsolid, significant_corrected, hleaves rfl, ← hbare, hleaves]
    rw [← h.parseTokens_remainder]
    rfl
  rw [parse, halike.bare_eq, h.parseTokens_remainder, hbare]

lemma sites_reread :
    (voidReturn closures).sites (parse ((voidReturn closures).corrected text []).text) [] = [] := by
  have hrule : (voidReturn closures).IsBuiltin := .inr ⟨closures, rfl⟩
  have hshaped := shaped_parse text
  rw [Rule.sites_eq_nil_iff hrule (shaped_parse _), ← Rule.exists_hasSite_bare hrule (shaped_parse _),
    h.bare_reread, Rule.exists_hasSite_bare hrule ((trimming_clauses closures _).trims.shaped hshaped)]
  rintro ⟨q, hsite⟩
  exact not_hasSite_prune hshaped q hsite

end Separable

end Rules

end SwiftTidy

import SwiftTidy.Proofs.Places
import SwiftTidy.Suppression.Region

/-!
# Offsets

A part of a tree begins after the bytes of all that stands before it, hence offsets follow the order of paths
(`Tree.startAt_add_width_le`). The comments of a tree, which are read off its row of tokens, are at the offsets of
their places (`Regions.comments_eq`). Offsets of a text and of its lines are positions in it.
-/

namespace SwiftTidy

/-! ## Bytes of a text -/

namespace Text

@[simp] lemma byteLength_nil : byteLength [] = 0 := rfl

@[simp] lemma byteLength_cons (c : Char) (cs : List Char) :
    byteLength (c :: cs) = c.utf8Size + byteLength cs := rfl

lemma byteLength_append (front back : List Char) :
    byteLength (front ++ back) = byteLength front + byteLength back := by
  induction front with
  | nil => simp
  | cons c front ih =>
    rw [List.cons_append, byteLength_cons, byteLength_cons, ih]
    omega

lemma byteLength_toList (text : String) : byteLength text.toList = text.utf8ByteSize := by
  have hlist : ∀ cs : List Char, byteLength cs = (String.ofList cs).utf8ByteSize := by
    intro cs
    induction cs with
    | nil => simp
    | cons c cs ih =>
      have hsplit : String.ofList (c :: cs) = String.singleton c ++ String.ofList cs := by simp
      rw [byteLength_cons, ih, hsplit, String.utf8ByteSize_append, String.utf8ByteSize_singleton]
  rw [hlist, String.ofList_toList]

end Text

/-! ## Lines -/

namespace Lines

open Text

variable {lines : Lines} {line start stop : Nat}

lemma offset_position (lines : Lines) (offset : Nat) :
    (lines.position offset).offset = min offset lines.size := rfl

variable {cs : List Char} {offset : Nat}

lemma offset_position_of_le (h : offset ≤ lines.size) : (lines.position offset).offset = offset := by
  rw [offset_position, Nat.min_eq_left h]

lemma le_of_mem_startsIn (h : start ∈ startsIn offset cs) : start ≤ offset + byteLength cs := by
  induction cs generalizing offset with
  | nil => simp [startsIn] at h
  | cons c cs ih =>
    rw [byteLength_cons]
    have hrest : start ∈ startsIn (offset + c.utf8Size) cs → start ≤ offset + (c.utf8Size + byteLength cs) := by
      intro hmem
      have := ih hmem
      omega
    rw [startsIn] at h
    split at h
    · rcases List.mem_cons.1 h with rfl | h
      · omega
      · exact hrest h
    · exact hrest h

lemma start_le_size (h : lines.start? line = some start) : start ≤ lines.size := by
  rw [start?, Option.ite_none_left_eq_some] at h
  have hmem := List.mem_of_getElem? h.2
  rw [starts, List.mem_cons] at hmem
  rcases hmem with rfl | hmem
  · omega
  · simpa [size] using le_of_mem_startsIn hmem

lemma add_byteLength_dropBytes_le {n : Nat} (h : n ≤ byteLength cs) :
    n + byteLength (dropBytes n cs) ≤ byteLength cs := by
  induction cs generalizing n with
  | nil =>
    obtain rfl : n = 0 := by simpa using h
    simp [dropBytes]
  | cons c cs ih =>
    cases n with
    | zero => simp [dropBytes]
    | succ n =>
      rw [byteLength_cons] at h ⊢
      rw [dropBytes]
      have := ih (n := n + 1 - c.utf8Size) (by omega)
      omega

lemma exists_start_of_stop? (h : lines.stop? line = some stop) :
    ∃ start, lines.start? line = some start ∧ start ≤ stop ∧ stop ≤ lines.size := by
  obtain ⟨start, hstart, rfl⟩ := Option.map_eq_some_iff.1 h
  refine ⟨start, hstart, Nat.le_add_right _ _, ?_⟩
  have hdrop := add_byteLength_dropBytes_le (start_le_size hstart)
  have htake : byteLength ((dropBytes start lines.chars).takeWhile fun c => !isLineBreak c) ≤
      byteLength (dropBytes start lines.chars) := by
    conv_rhs => rw [← List.takeWhile_append_dropWhile (p := fun c => !isLineBreak c)
      (l := dropBytes start lines.chars), byteLength_append]
    omega
  rw [size]
  omega

lemma isSome_stop? (h : lines.start? line = some start) : ∃ stop, lines.stop? line = some stop :=
  ⟨_, by rw [stop?, h, Option.map_some]⟩

end Lines

lemma Source.size_lines (source : Source) : source.lines.size = source.tree.width := by
  rw [lines, Lines.ofText, Lines.size, Text.byteLength_toList, text, Tree.width_eq_utf8ByteSize]

/-! ## Where parts begin -/

namespace Tree

lemma widthOf_append (front back : List Tree) : widthOf (front ++ back) = widthOf front + widthOf back := by
  induction front with
  | nil => simp [widthOf]
  | cons tree front ih =>
    rw [List.cons_append, widthOf, widthOf, ih]
    omega

lemma startAt_append_cons (kind : Kind) (front back : List Tree) (child : Tree) (path : Path) :
    (Tree.node kind (front ++ child :: back)).startAt (front.length :: path) =
      widthOf front + child.startAt path := by
  simp [startAt]

variable {p : Path} {tree part : Tree}

lemma startAt_append (h : tree.sub? p = some part) (q : Path) :
    tree.startAt (p ++ q) = tree.startAt p + part.startAt q := by
  induction p, tree, h using sub?_induction with
  | here => simp [startAt]
  | inside kind front child back p h ih =>
    rw [List.cons_append, startAt_append_cons, startAt_append_cons, ih, Nat.add_assoc]

lemma startAt_add_width_le_width {path : Path} (h : tree.sub? path = some part) :
    tree.startAt path + part.width ≤ tree.width := by
  induction path, tree, h using sub?_induction with
  | here => simp [startAt]
  | inside kind front child back path h ih =>
    rw [startAt_append_cons, width, widthOf_append, widthOf]
    omega

/-- A part ends no later than one that comes after it begins. -/
lemma startAt_add_width_le {q : Path} (h : Path.Precedes p q) (hpart : tree.sub? p = some part) :
    tree.startAt p + part.width ≤ tree.startAt q := by
  induction p generalizing tree q with
  | nil => simp at h
  | cons i p ih =>
    cases q with
    | nil => simp at h
    | cons j q =>
      obtain ⟨kind, children, child, rfl, hchild, hinner⟩ := exists_child_of_sub?_cons hpart
      rw [startAt, startAt, hchild]
      rcases h with hij | ⟨rfl, hpq⟩
      · obtain ⟨hi, rfl⟩ := List.getElem?_eq_some_iff.1 hchild
        have hchildEnd := startAt_add_width_le_width hinner
        have hrow : widthOf (children.take (i + 1)) = widthOf (children.take i) + children[i].width := by
          rw [List.take_add_one, hchild, widthOf_append]
          simp [widthOf]
        have hmono : widthOf (children.take (i + 1)) ≤ widthOf (children.take j) := by
          have hsplit : children.take j = children.take (i + 1) ++ (children.take j).drop (i + 1) := by
            conv_lhs => rw [← List.take_append_drop (i + 1) (children.take j), List.take_take, Nat.min_eq_left hij]
          rw [hsplit, widthOf_append]
          omega
        simp only
        omega
      · have := ih hpq hinner
        rw [hchild]
        simp only
        omega

/-! ## Tokens with their offsets -/

lemma length_spans (start : Nat) (tokens : List Token) : (Token.spans start tokens).length = tokens.length := by
  induction tokens generalizing start with
  | nil => rfl
  | cons token tokens ih => simp [Token.spans, ih]

lemma spans_append (start : Nat) (front back : List Token) :
    Token.spans start (front ++ back) =
      Token.spans start front ++ Token.spans (start + (Token.textOf front).utf8ByteSize) back := by
  induction front generalizing start with
  | nil => simp [Token.spans, Token.textOf]
  | cons token front ih =>
    have hsize : (Token.textOf (token :: front)).utf8ByteSize = token.width + (Token.textOf front).utf8ByteSize := by
      simp [Token.textOf, Token.width]
    rw [List.cons_append, Token.spans, Token.spans, ih, hsize, List.cons_append, Nat.add_assoc]

/-- A token with the bytes that it takes up, if the tree begins at byte `start`. -/
def located (tree : Tree) (start : Nat) (placed : Placed) : Token × Span :=
  (placed.token, ⟨start + tree.startAt placed.path, start + tree.startAt placed.path + placed.token.width⟩)

mutual

lemma zip_spans (start : Nat) (tree : Tree) :
    tree.leaves.zip (Token.spans start tree.leaves) = tree.placedTokens.map (tree.located start) := by
  cases tree with
  | leaf token => simp [Token.spans, located, startAt, Placed.path]
  | node kind children =>
    have hrow := zip_spansOf start kind [] children
    simpa [widthOf] using hrow

lemma zip_spansOf (start : Nat) (kind : Kind) (front : List Tree) (trees : List Tree) :
    (leavesOf trees).zip (Token.spans (start + widthOf front) (leavesOf trees)) =
      (placedFrom front.length trees).map ((Tree.node kind (front ++ trees)).located start) := by
  cases trees with
  | nil => simp [placedFrom]
  | cons tree rest =>
    have hrest := zip_spansOf start kind (front ++ [tree]) rest
    have hfirst := zip_spans (start + widthOf front) tree
    rw [widthOf_append, List.length_append, List.append_assoc] at hrest
    rw [leavesOf_cons, spans_append, List.zip_append (length_spans _ _).symm, placedFrom, List.map_append, hfirst]
    congr 1
    · rw [List.map_map]
      refine List.map_congr_left fun placed _ => ?_
      have hstart := startAt_append_cons kind front rest tree placed.path
      simp only [located, Function.comp_apply, Placed.path_under, Placed.token_under, List.singleton_append, hstart,
        Nat.add_assoc]
    · rw [← text, ← width_eq_utf8ByteSize, Nat.add_assoc]
      simpa [widthOf] using hrest

end

end Tree

/-! ## Comments -/

namespace Regions

open SwiftTidy.Tree

lemma comments_eq (tree : Tree) :
    comments tree = (tree.placedTokens.filter fun placed => placed.token.kind.isComment).map fun placed =>
      (tree.startAt placed.path, placed.token.text) := by
  rw [comments, zip_spans, List.filter_map, List.map_map]
  simp [Function.comp_def, located]

lemma pairwise_comments (tree : Tree) : (comments tree).Pairwise fun a b => a.1 ≤ b.1 := by
  rw [comments_eq, List.pairwise_map]
  refine (tree.pairwise_placedTokens.filter _).imp_of_mem ?_
  intro a b ha _ hab
  have := startAt_add_width_le hab (sub?_of_mem_placedTokens (List.mem_filter.1 ha).1)
  simp only
  omega

lemma le_width_of_mem_comments {tree : Tree} {comment : Nat × String} (h : comment ∈ comments tree) :
    comment.1 ≤ tree.width := by
  rw [comments_eq, List.mem_map] at h
  obtain ⟨placed, hplaced, rfl⟩ := h
  have := startAt_add_width_le_width (sub?_of_mem_placedTokens (List.mem_filter.1 hplaced).1)
  simp only
  omega

end Regions

end SwiftTidy

import SwiftTidy.Syntax.Token

/-!
# Syntax trees

A syntax tree holds every token of its text as a leaf, trivia included, so the text can be read off
the leaves. A node may have no children at all.

Places in a tree are paths: the indices of the children on the way down from the root.
-/

namespace SwiftTidy

/-- A syntax tree. -/
inductive Tree where
  | leaf (token : Token)
  /-- A node of a kind with its children in order. -/
  | node (kind : Kind) (children : List Tree)
  deriving Repr

instance : Inhabited Tree := ⟨.node .sourceFile []⟩

abbrev Path := List Nat

namespace Tree

/-! ## Leaves and text -/

mutual

def leaves : Tree → List Token
  | .leaf token => [token]
  | .node _ children => leavesOf children

def leavesOf : List Tree → List Token
  | [] => []
  | tree :: rest => tree.leaves ++ leavesOf rest

end

def text (tree : Tree) : String := Token.textOf tree.leaves

mutual

def width : Tree → Nat
  | .leaf token => token.width
  | .node _ children => widthOf children

def widthOf : List Tree → Nat
  | [] => 0
  | tree :: rest => tree.width + widthOf rest

end

@[simp] theorem leaves_leaf (token : Token) : (Tree.leaf token).leaves = [token] := rfl

@[simp] theorem leaves_node (kind : Kind) (children : List Tree) :
    (Tree.node kind children).leaves = leavesOf children := rfl

@[simp] theorem leavesOf_nil : leavesOf [] = [] := rfl

@[simp] theorem leavesOf_cons (tree : Tree) (rest : List Tree) :
    leavesOf (tree :: rest) = tree.leaves ++ leavesOf rest := rfl

/-- The leaves of two rows of trees are the leaves of the first and then those of the second. -/
@[simp] theorem leavesOf_append (front back : List Tree) :
    leavesOf (front ++ back) = leavesOf front ++ leavesOf back := by
  induction front with
  | nil => rfl
  | cons tree rest ih => simp [ih]

/-- Tokens that stand as trees of their own are their own leaves. -/
@[simp] theorem leavesOf_map_leaf (tokens : List Token) :
    leavesOf (tokens.map Tree.leaf) = tokens := by
  induction tokens with
  | nil => rfl
  | cons token rest ih => simp [ih]

mutual

/-- A tree takes up as many bytes as its text does. -/
theorem width_eq_utf8ByteSize (tree : Tree) : tree.width = tree.text.utf8ByteSize := by
  cases tree with
  | leaf token => simp [width, text, Token.width, Token.textOf]
  | node kind children => simpa [width, text] using widthOf_eq_utf8ByteSize children

/-- Trees in a row take up as many bytes as the text of their tokens does. -/
theorem widthOf_eq_utf8ByteSize (trees : List Tree) :
    widthOf trees = (Token.textOf (leavesOf trees)).utf8ByteSize := by
  cases trees with
  | nil => simp [widthOf, Token.textOf]
  | cons tree rest =>
    rw [widthOf, width_eq_utf8ByteSize tree, widthOf_eq_utf8ByteSize rest, leavesOf_cons, Token.textOf_append,
      String.utf8ByteSize_append, text]

end

/-! ## Parts -/

def kind : Tree → Kind
  | .leaf token => token.kind
  | .node kind _ => kind

def children : Tree → List Tree
  | .leaf _ => []
  | .node _ children => children

def isNode : Tree → Bool
  | .leaf _ => false
  | .node _ _ => true

def token? : Tree → Option Token
  | .leaf token => some token
  | .node _ _ => none

def childNodes (tree : Tree) : List Tree := tree.children.filter Tree.isNode

def childTokens (tree : Tree) : List Token := tree.children.filterMap Tree.token?

/-- The part of a tree at a path. -/
def sub? : Tree → Path → Option Tree
  | tree, [] => some tree
  | .leaf _, _ :: _ => none
  | .node _ children, i :: path =>
    match children[i]? with
    | some child => child.sub? path
    | none => none

/-- The number of bytes before the part at a path. -/
def startAt : Tree → Path → Nat
  | _, [] => 0
  | .leaf _, _ :: _ => 0
  | .node _ children, i :: path =>
    widthOf (children.take i) +
      match children[i]? with
      | some child => child.startAt path
      | none => 0

def spanAt (tree : Tree) (path : Path) : Span :=
  let start := tree.startAt path
  ⟨start, start + ((tree.sub? path).map Tree.width).getD 0⟩

mutual

def nodePaths : Tree → List Path
  | .leaf _ => []
  | .node _ children => [] :: nodePathsOf 0 children

/-- The paths of all nodes of several trees, the first of which is child number `i`. -/
def nodePathsOf (i : Nat) : List Tree → List Path
  | [] => []
  | tree :: rest => tree.nodePaths.map (i :: ·) ++ nodePathsOf (i + 1) rest

end

/-! ## Listing -/

/-- One line of a listing of a tree. -/
structure Row where
  /-- How many nodes stand around the part. -/
  depth : Nat
  kind : Kind
  span : Span
  text? : Option String
  deriving DecidableEq, Repr

mutual

/-- The rows of a tree that begins at byte `start` below `depth` nodes. -/
def rows (depth start : Nat) : Tree → List Row
  | .leaf token => [⟨depth, token.kind, ⟨start, start + token.width⟩, some token.text⟩]
  | .node kind children =>
    ⟨depth, kind, ⟨start, start + widthOf children⟩, none⟩
      :: rowsOf (depth + 1) start children

def rowsOf (depth start : Nat) : List Tree → List Row
  | [] => []
  | tree :: rest => tree.rows depth start ++ rowsOf depth (start + tree.width) rest

end

def listing (tree : Tree) : List Row := tree.rows 0 0

end Tree

end SwiftTidy

import SwiftTidy.Syntax.Trivia

/-!
# Edits

An edit changes a tree and says where the parts that are still there went, so that places noted before
the edit can be found again after it.

Taking a node out of a file also tidies the blanks around it. The space that follows the node on its line
goes along. If the rest of the line is then empty, so does the space that set the node off from the token
before it. A node that opens a continuation line takes the line break and the indentation with it, so that
what follows it comes up to the line before. A comment is never taken along.
-/

namespace SwiftTidy

/-- What became of a tree. -/
structure Edit where
  tree : Tree
  /-- Where the part at a path is after the edit, if it is still there. -/
  moved : Path → Option Path

namespace Path

/-- What is left of the paths that lead into child number `i`, from that child on. -/
def below (i : Nat) (paths : List Path) : List Path :=
  paths.filterMap fun path =>
    match path with
    | [] => none
    | j :: rest => if j == i then some rest else none

/-- Where the part at a path is once the parts at the paths `gone`, which all differ, are taken out. -/
def afterPruning (gone : List Path) : Path → Option Path
  | [] => some []
  | i :: path =>
    if gone.contains [i] then none
    else
      let shift := gone.countP fun other =>
        match other with
        | [j] => j < i
        | _ => false
      (afterPruning (below i gone) path).map fun rest => (i - shift) :: rest

end Path

namespace Tree

mutual

/-- A tree without the parts at the paths `gone`. The tree itself stays. -/
def prune (gone : List Path) : Tree → Tree
  | .leaf token => .leaf token
  | .node kind children => .node kind (pruneOf gone 0 children)

/-- Several children in a row, the first of which is number `i`, without the parts at the paths `gone`. -/
def pruneOf (gone : List Path) (i : Nat) : List Tree → List Tree
  | [] => []
  | tree :: rest =>
    if gone.contains [i] then pruneOf gone (i + 1) rest
    else tree.prune (Path.below i gone) :: pruneOf gone (i + 1) rest

end

/-- A tree with another one in place of the part at a path. -/
def replaceAt : Tree → Path → Tree → Tree
  | _, [], new => new
  | .leaf token, _ :: _, _ => .leaf token
  | .node kind children, i :: path, new =>
    .node kind (children.modify i fun child => child.replaceAt path new)

end Tree

namespace Edit

def keep (tree : Tree) : Edit := ⟨tree, some⟩

def take (tree : Tree) (paths : List Path) : Edit :=
  ⟨tree.prune paths, Path.afterPruning paths⟩

/-- Puts another tree in place of the part at a path. Nothing that was inside that part is there any
more, even if the new tree looks the same. -/
def replace (tree : Tree) (path : Path) (new : Tree) : Edit :=
  ⟨tree.replaceAt path new, fun other => if path.isPrefixOf other then none else some other⟩

def andThen (edit : Edit) (next : Tree → Edit) : Edit :=
  let second := next edit.tree
  ⟨second.tree, fun path => (edit.moved path).bind second.moved⟩

/-- Takes out the space that trails a place, unless there is a comment in it. -/
def dropDanglingSpace (tree : Tree) (path : Path) : Edit :=
  let trail := (tree.around path).trailing
  if trail.all Placed.isSpace then take tree (trail.map Placed.path) else keep tree

/-- Whether a place opens a continuation line: only blanks with a line break among them part it from the
token before it. -/
def opensContinuation (around : Around) : Bool :=
  around.significantBefore?.isSome && around.startsLine &&
    around.gapBefore.all fun placed => placed.isSpace || placed.isNewline

def endsLine (tree : Tree) (around : Around) : Bool :=
  match around.significantAfter? with
  | some next => (tree.around next.path).startsLine
  | none => true

/-- Takes out the node at a path together with the blanks that it leaves behind. A node that does not
begin and end with a token is taken out alone. -/
def remove (tree : Tree) (path : Path) : Edit :=
  let slots := tree.slotsAt path
  match slots.head?.bind Slot.token?, slots.getLast?.bind Slot.token? with
  | some _, some _ =>
    let around := tree.around path
    let space := (around.trailing.takeWhile Placed.isSpace).map Placed.path
    let lineEnds := endsLine tree around
    if opensContinuation around then
      let indent := around.gapBefore.map Placed.path
      take tree (path :: indent ++ if lineEnds then space else [])
    else
      let cut := take tree (path :: space)
      match around.significantBefore? with
      | some previous =>
        if lineEnds then cut.andThen fun rest => dropDanglingSpace rest previous.path else cut
      | none => cut
  | _, _ => take tree [path]

end Edit

end SwiftTidy

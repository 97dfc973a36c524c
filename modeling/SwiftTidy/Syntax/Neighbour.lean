import SwiftTidy.Syntax.Tree

/-!
# Neighbours in a tree

Seen from the side, a tree is a row of slots: its leaves, and one empty slot for each node that has no
children. Walking from a place to its neighbours steps from slot to slot and cannot pass an empty one,
so an empty node ends a walk just as the end of the file does.

The place itself may be a token or a node. All that matters of it is what stands around it.
-/

namespace SwiftTidy

/-- A place where a walk through a tree can stand. -/
structure Slot where
  /-- The way from the slot up to the root, as the indices of children. -/
  up : List Nat
  /-- The token in the slot. A node without children makes a slot that holds none. -/
  token? : Option Token
  deriving DecidableEq, Repr

/-- A token with its place in a tree. -/
structure Placed where
  /-- The way from the token up to the root, as the indices of children. -/
  up : List Nat
  token : Token
  deriving DecidableEq, Repr

namespace Placed

def path (placed : Placed) : Path := placed.up.reverse

end Placed

namespace Slot

def placed? (slot : Slot) : Option Placed := slot.token?.map (Placed.mk slot.up)

/-- The tokens that a walk along the slots meets. It goes on over trivia and ends with the first significant
token, unless it is stopped before. -/
def walk : List Slot → List Placed
  | [] => []
  | slot :: rest =>
    match slot.placed? with
    | none => []
    | some placed => if placed.token.isTrivia then placed :: walk rest else [placed]

end Slot

/-- What stands around a place. -/
structure Around where
  /-- The slots before the place, the nearest first. -/
  before : List Slot
  after : List Slot
  deriving DecidableEq, Repr

namespace Around

/-- The tokens of a row of slots, each with what stands around it, where the slots `before` come before the
row, backwards. -/
def sweep (before : List Slot) : List Slot → List (Placed × Around)
  | [] => []
  | slot :: rest =>
    let later := sweep (slot :: before) rest
    match slot.placed? with
    | some placed => (placed, ⟨before, rest⟩) :: later
    | none => later

end Around

namespace Tree

mutual

/-- The slots of a tree, with `tail` behind them. The tree is found from the root by going `up`
backwards. -/
def slotsOnto (up : List Nat) : Tree → List Slot → List Slot
  | .leaf token, tail => ⟨up, some token⟩ :: tail
  | .node _ [], tail => ⟨up, none⟩ :: tail
  | .node _ (child :: rest), tail => slotsOfOnto up 0 (child :: rest) tail

/-- The slots of several children in a row, the first of which is number `i`, with `tail` behind them. -/
def slotsOfOnto (up : List Nat) (i : Nat) : List Tree → List Slot → List Slot
  | [], tail => tail
  | tree :: rest, tail => tree.slotsOnto (i :: up) (slotsOfOnto up (i + 1) rest tail)

end

def slots (tree : Tree) : List Slot := tree.slotsOnto [] []

mutual

def slotCount : Tree → Nat
  | .leaf _ => 1
  | .node _ [] => 1
  | .node _ (child :: rest) => slotCountOf (child :: rest)

def slotCountOf : List Tree → Nat
  | [] => 0
  | tree :: rest => tree.slotCount + slotCountOf rest

end

/-- The number of slots before the part at a path. -/
def slotIndex : Tree → Path → Nat
  | _, [] => 0
  | .leaf _, _ :: _ => 0
  | .node _ children, i :: path =>
    slotCountOf (children.take i) +
      match children[i]? with
      | some child => child.slotIndex path
      | none => 0

def slotStop (tree : Tree) (path : Path) : Nat :=
  tree.slotIndex path + ((tree.sub? path).map slotCount).getD 0

def slotsAt (tree : Tree) (path : Path) : List Slot :=
  (tree.slots.take (tree.slotStop path)).drop (tree.slotIndex path)

def placedTokens (tree : Tree) : List Placed := tree.slots.filterMap Slot.placed?

def around (tree : Tree) (path : Path) : Around :=
  ⟨(tree.slots.take (tree.slotIndex path)).reverse, tree.slots.drop (tree.slotStop path)⟩

def tokensAround (tree : Tree) : List (Placed × Around) := Around.sweep [] tree.slots

/-- The token that a tree begins with. There is none if the way down its first children ends in a
node without children. -/
def firstToken? : Tree → Option Token
  | .leaf token => some token
  | .node _ [] => none
  | .node _ (child :: _) => child.firstToken?

end Tree

end SwiftTidy

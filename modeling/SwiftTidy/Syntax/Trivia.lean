import SwiftTidy.Syntax.Neighbour

/-!
# Trivia around a place

The trivia between two significant tokens is shared out between them. Up to the first line break it
trails the earlier token, and from there on it leads the later one. Before the first significant token
all of it leads.
-/

namespace SwiftTidy

namespace Placed

def isTrivia (placed : Placed) : Bool := placed.token.isTrivia

def isNewline (placed : Placed) : Bool := placed.token.kind == .newline

def isSpace (placed : Placed) : Bool := placed.token.kind == .whitespace

def textOf (row : List Placed) : String := Token.textOf (row.map Placed.token)

end Placed

namespace Around

def significantBefore? (around : Around) : Option Placed :=
  (Slot.walk around.before).find? fun placed => !placed.isTrivia

def significantAfter? (around : Around) : Option Placed :=
  (Slot.walk around.after).find? fun placed => !placed.isTrivia

def gapBefore (around : Around) : List Placed :=
  ((Slot.walk around.before).takeWhile Placed.isTrivia).reverse

/-- The trivia that trails a place: what follows it up to the next line break. -/
def trailing (around : Around) : List Placed :=
  (Slot.walk around.after).takeWhile fun placed => placed.isTrivia && !placed.isNewline

/-- The trivia that leads a place: what precedes it and does not trail a significant token. -/
def leading (around : Around) : List Placed :=
  match around.significantBefore? with
  | none => around.gapBefore
  | some _ => around.gapBefore.dropWhile fun placed => !placed.isNewline

def startsLine (around : Around) : Bool :=
  around.significantBefore?.isNone || around.leading.any Placed.isNewline

end Around

end SwiftTidy

import SwiftTidy.Syntax.Parser
import SwiftTidy.Text.Lines

/-!
# Sources

A source is a syntax tree with the errors that were met in reading it. A tree that was made by an edit was
not read from a text and has none.
-/

namespace SwiftTidy

/-- A file as the rules see it. -/
structure Source where
  tree : Tree
  /-- What was wrong with the text it was read from. -/
  errors : List LexError

namespace Source

def ofText (text : String) : Source := ⟨parse text, lexErrors text⟩

def ofTree (tree : Tree) : Source := ⟨tree, []⟩

def text (source : Source) : String := source.tree.text

def lines (source : Source) : Lines := Lines.ofText source.text

def extentAt (source : Source) (path : Path) : Extent :=
  let span := source.tree.spanAt path
  ⟨source.lines.position span.start, source.lines.position span.stop⟩

end Source

end SwiftTidy

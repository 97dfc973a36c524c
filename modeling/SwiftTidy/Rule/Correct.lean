import SwiftTidy.Rule.Detect

/-!
# Correction

The sites of a rule are changed from the end of the file backwards, and inner sites before outer ones. Each
change is worked out on the tree that the changes before it have left, so an outer site sees what was done
inside it. A site that is gone, and one whose change fails, are passed over.
-/

namespace SwiftTidy

/-- Where a pass of corrections stands. -/
structure Pass where
  tree : Tree
  /-- Where the parts of the first tree are now. -/
  moved : Path → Option Path
  /-- The corrections so far. As the pass goes backwards, the last one comes first. -/
  corrections : List Correction

/-- What a pass of corrections comes to. -/
structure Corrected where
  source : Source
  /-- The corrections, in the order of the text. Their positions are those before the pass. -/
  corrections : List Correction

namespace Rule

/-- The order of changes: what begins later comes first, and of two nodes with the same beginning the
inner one. -/
def fixesBefore (tree : Tree) (a b : Site) : Bool :=
  tree.startAt b.path < tree.startAt a.path ||
    (tree.startAt b.path == tree.startAt a.path && b.path.length ≤ a.path.length)

def edit? (rule : Rule) (tree : Tree) (site : Site) : Option Edit :=
  (Error.skip (rule.check.fix tree site)).join.bind fun change =>
    Error.skip (change.apply tree)

/-- Corrects one site. -/
def correctSite (rule : Rule) (lines : Lines) (pass : Pass) (site : Site) : Pass :=
  match pass.moved site.path with
  | none => pass
  | some path =>
    match rule.edit? pass.tree { site with path := path } with
    | none => pass
    | some edit =>
      ⟨edit.tree, fun path => (pass.moved path).bind edit.moved,
        ⟨rule.id, lines.position site.anchor⟩ :: pass.corrections⟩

/-- Corrects every site of a rule outside the given regions. -/
def correct (rule : Rule) (source : Source) (regions : List Region) : Corrected :=
  let tree := source.tree
  let sites := (rule.sites tree regions).mergeSort (fixesBefore tree)
  let pass := sites.foldl (rule.correctSite source.lines) ⟨tree, some, []⟩
  ⟨Source.ofTree pass.tree, pass.corrections⟩

end Rule

end SwiftTidy

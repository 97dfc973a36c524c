import SwiftTidy.Rule.Basic
import SwiftTidy.Suppression.Region

/-!
# Detection

The sites of a rule in a tree, and the violations that are reported for them. Reports and corrections choose
their sites in the same way.
-/

namespace SwiftTidy

namespace Rule

/-- The sites of a rule outside the given regions, in the order of their anchors. A node on which the rule
fails is no site. -/
def sites (rule : Rule) (tree : Tree) (regions : List Region) : List Site :=
  let found := tree.nodePaths.filterMap fun path => (Error.skip (rule.check.find tree path)).join
  (found.filter fun site => !Region.covers regions site.anchor).mergeSort
    fun a b => a.anchor ≤ b.anchor

/-- The violation that is reported for a site. -/
def violation (rule : Rule) (lines : Lines) (site : Site) : Violation :=
  ⟨rule.id, lines.position site.anchor, rule.description.severity,
    site.message?.getD rule.description.description⟩

/-- The violations of a rule in a source outside the given regions, in order. -/
def detect (rule : Rule) (source : Source) (regions : List Region) : List Violation :=
  let lines := source.lines
  (rule.sites source.tree regions).map (rule.violation lines)

end Rule

end SwiftTidy

import SwiftTidy.Rule.Correct

/-!
# Linters

A linter is a list of rules with their severities. It reports what all of them find in a source, and corrects
a source by one rule after the other.
-/

namespace SwiftTidy

/-- A rule with the severity that its violations get. -/
structure ActiveRule where
  rule : Rule
  severity : Severity

namespace ActiveRule

def ofRule (rule : Rule) : ActiveRule := ⟨rule, rule.description.severity⟩

end ActiveRule

/-- What a linter finds in a source. -/
structure Report where
  /-- The violations, in the order of the text, and at one place in the order of the rules. -/
  violations : List Violation
  /-- The directives that have no effect. -/
  warnings : List RegionWarning
  deriving DecidableEq, Repr

/-- What a linter makes of a source. -/
structure CorrectionReport where
  source : Source
  /-- The corrections, rule by rule. Positions are those in the source that the rule was applied to. -/
  corrections : List Correction
  /-- The directives of the given source that have no effect. -/
  warnings : List RegionWarning

/-- The rules that are run together, in order. -/
structure Linter where
  rules : List ActiveRule

namespace Report

def hasErrors (report : Report) : Bool :=
  report.violations.any fun violation => violation.severity == .error

end Report

namespace Linter

/-- The violations of one rule under its severity. -/
def violationsOf (active : ActiveRule) (source : Source) (regions : Regions) : List Violation :=
  (active.rule.detect source (regions.forRule active.rule.id)).map fun violation =>
    { violation with severity := active.severity }

/-- The order of a report: by offset, and then by the place of the rule in the linter. -/
def reportsBefore (a b : Nat × Violation) : Bool :=
  a.2.position.offset < b.2.position.offset ||
    (a.2.position.offset == b.2.position.offset && a.1 ≤ b.1)

/-- What the rules find in a source. -/
def lint (linter : Linter) (source : Source) : Report :=
  let regions := Regions.resolve source
  let found := linter.rules.zipIdx.flatMap fun (active, i) =>
    (violationsOf active source regions).map fun violation => (i, violation)
  ⟨(found.mergeSort reportsBefore).map Prod.snd, regions.warnings⟩

/-- Corrects a source by one rule. The directives are read again, since what was corrected before may
have moved them. -/
def correctWith (state : Source × List Correction) (active : ActiveRule) : Source × List Correction :=
  let regions := (Regions.resolve state.1).forRule active.rule.id
  let outcome := active.rule.correct state.1 regions
  (outcome.source, state.2 ++ outcome.corrections)

/-- Corrects a source by every rule that has corrections to offer. -/
def correct (linter : Linter) (source : Source) : CorrectionReport :=
  let rules := linter.rules.filter fun active => active.rule.isCorrectable
  let state := rules.foldl correctWith (source, [])
  ⟨state.1, state.2, (Regions.resolve source).warnings⟩

end Linter

end SwiftTidy

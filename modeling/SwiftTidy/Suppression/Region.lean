import SwiftTidy.Suppression.Directive
import SwiftTidy.Syntax.Source

/-!
# Regions where rules are switched off

The directives of a file are read in order. Each rule that is switched off opens a region, and the next
directive that switches the same rule on closes the region that was opened last. What is still open at the
end of the file reaches to its end. A directive for one line gives a region right away.
-/

namespace SwiftTidy

/-- A stretch of a file where a rule is switched off. Both ends belong to it. -/
structure Region where
  /-- The identifier of the rule, or `all`. -/
  rule : String
  start : Position
  stop : Position
  deriving DecidableEq, Repr

/-- Why a directive has no effect. -/
inductive RegionProblem where
  /-- The comment is no directive after all. -/
  | directive (problem : DirectiveProblem)
  /-- The rule is switched on where it was not switched off. -/
  | notDisabled (rule : String)
  | noLine (scope : LineScope) (rule : String)
  /-- The region would end before it begins. -/
  | inverted (rule : String)
  deriving DecidableEq, Repr

/-- A directive that has no effect, with its place. -/
structure RegionWarning where
  position : Position
  problem : RegionProblem
  deriving DecidableEq, Repr

/-- What the directives of a file come to. -/
structure Regions where
  regions : List Region
  /-- The directives that have no effect, in order. -/
  warnings : List RegionWarning
  deriving DecidableEq, Repr

namespace RegionProblem

/-- What a reader is told. -/
def message : RegionProblem → String
  | .directive problem => problem.message
  | .notDisabled rule => "'enable " ++ rule ++ "' without a matching 'disable'"
  | .noLine scope rule =>
    "'disable:" ++ scope.name ++ "' for '" ++ rule ++ "' has no line to apply to"
  | .inverted rule => "inverted region for '" ++ rule ++ "'"

end RegionProblem

namespace Region

def everyRule : String := "all"

def contains (region : Region) (offset : Nat) : Bool :=
  region.start.offset ≤ offset && offset ≤ region.stop.offset

def appliesTo (region : Region) (id : String) : Bool :=
  region.rule == id || region.rule == everyRule

def covers (regions : List Region) (offset : Nat) : Bool :=
  regions.any fun region => region.contains offset

/-- The order of regions: by where they begin, and then by the name of the rule. -/
def atOrBefore (a b : Region) : Bool :=
  a.start.offset < b.start.offset || (a.start.offset == b.start.offset && !(b.rule < a.rule))

end Region

namespace Regions

/-- Where the reading of directives stands. -/
structure Scan where
  /-- The regions that are open, as rule and beginning, the one opened last first. -/
  opened : List (String × Position)
  found : Regions

def warn (position : Position) (problem : RegionProblem) (found : Regions) : Regions :=
  { found with warnings := found.warnings ++ [⟨position, problem⟩] }

/-- Adds a region. -/
def add (rule : String) (start stop : Position) (found : Regions) : Regions :=
  if stop.offset < start.offset then found.warn start (.inverted rule)
  else { found with regions := found.regions ++ [⟨rule, start, stop⟩] }

/-- The line that a scope names from a line on, if the text has it. -/
def lineOf? (lines : Lines) (line : Nat) : LineScope → Option Nat
  | .previous => if 1 < line then some (line - 1) else none
  | .this => some line
  | .next => if line + 1 ≤ lines.count then some (line + 1) else none

/-- The region of a line for a rule. -/
def lineRegion? (lines : Lines) (line : Nat) (scope : LineScope) : Option (Position × Position) := do
  let line ← lineOf? lines line scope
  let start ← lines.start? line
  let stop ← lines.stop? line
  return (lines.position start, lines.position stop)

/-- Applies an action at a position to one rule. -/
def applyTo (lines : Lines) (position : Position) (action : Action) (scan : Scan) (rule : String) :
    Scan :=
  match action with
  | .disable => { scan with opened := (rule, position) :: scan.opened }
  | .enable =>
    match scan.opened.find? fun entry => entry.1 == rule with
    | some entry =>
      ⟨scan.opened.eraseP fun entry => entry.1 == rule, scan.found.add rule entry.2 position⟩
    | none => { scan with found := scan.found.warn position (.notDisabled rule) }
  | .disableLine scope =>
    match lineRegion? lines position.line scope with
    | some (start, stop) => { scan with found := scan.found.add rule start stop }
    | none => { scan with found := scan.found.warn position (.noLine scope rule) }

/-- Reads the comment at an offset. -/
def readComment (lines : Lines) (scan : Scan) (comment : Nat × String) : Scan :=
  let position := lines.position comment.1
  match Directive.ofComment comment.2 with
  | .ok (some directive) => directive.rules.foldl (applyTo lines position directive.action) scan
  | .ok none => scan
  | .error problem => { scan with found := scan.found.warn position (.directive problem) }

/-- The comments of a tree with their offsets. -/
def comments (tree : Tree) : List (Nat × String) :=
  ((tree.leaves.zip (Token.spans 0 tree.leaves)).filter fun entry => entry.1.kind.isComment).map
    fun entry => (entry.2.start, entry.1.text)

/-- Closes what is still open at a position. -/
def close (stop : Position) (scan : Scan) : Regions :=
  let left := (scan.opened.map fun entry => (⟨entry.1, entry.2, stop⟩ : Region)).mergeSort
    Region.atOrBefore
  left.foldl (fun found region => found.add region.rule region.start region.stop) scan.found

/-- What the directives of a source come to. -/
def resolve (source : Source) : Regions :=
  let lines := source.lines
  let scan := (comments source.tree).foldl (readComment lines) ⟨[], ⟨[], []⟩⟩
  let found := close (lines.position lines.size) scan
  { found with regions := found.regions.mergeSort Region.atOrBefore }

def forRule (found : Regions) (id : String) : List Region :=
  found.regions.filter fun region => region.appliesTo id

end Regions

end SwiftTidy

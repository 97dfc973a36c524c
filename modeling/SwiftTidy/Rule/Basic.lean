import SwiftTidy.Data.Value
import SwiftTidy.Error
import SwiftTidy.Syntax.Edit
import SwiftTidy.Syntax.Source

/-!
# Rules

A rule looks at the nodes of a tree one by one and says which of them it objects to. For such a site it may
offer a change. Both may fail, which concerns that one node only.
-/

namespace SwiftTidy

open Data

/-- How much a violation weighs. -/
inductive Severity where
  | warning
  /-- A violation that makes the check fail. -/
  | error
  deriving DecidableEq, Repr

/-- The families of rules. -/
inductive RuleKind where
  | idiomatic
  /-- The form of the text, and what is said twice. -/
  | style
  | lint
  deriving DecidableEq, Repr

/-- What a rule says about itself. In an example the character `↓` marks where a violation is reported. -/
structure Description where
  /-- The identifier, as directives and configurations use it. -/
  id : String
  name : String
  /-- What is wrong with a site, unless the site says more. -/
  description : String
  /-- The family that the rule belongs to. -/
  kind : RuleKind
  /-- The severity, unless it is configured. -/
  severity : Severity
  /-- Whether the rule runs only where a configuration names it. -/
  optIn : Bool
  /-- Texts that the rule has nothing against. -/
  nonTriggering : List String
  triggering : List String
  /-- Texts with violations, each with what it is corrected to. -/
  corrections : List (String × String)
  deriving DecidableEq, Repr

/-- A place that a rule objects to. -/
structure Site where
  path : Path
  /-- The offset at which the violation is reported. -/
  anchor : Nat
  /-- What is wrong, in place of the rule's description. -/
  message? : Option String
  deriving DecidableEq, Repr

/-- A change of a tree that a rule asks for. -/
inductive Change where
  /-- Takes out a node, with the blanks that it leaves behind. -/
  | remove (path : Path)
  /-- Puts another tree in place of a node. -/
  | replace (path : Path) (tree : Tree)

/-- How a rule works. -/
structure Check where
  /-- Decides about the node of a tree at a path. -/
  find : Tree → Path → Except Error (Option Site)
  /-- The change for a site, if there is one. The tree may have changed since the site was found. -/
  fix : Tree → Site → Except Error (Option Change)

/-- A rule. -/
structure Rule where
  description : Description
  check : Check
  /-- How the rule works with given options, if they make a difference. -/
  configure : Value → Except Error (Option Check)

namespace Severity

def name : Severity → String
  | .warning => "warning"
  | .error => "error"

end Severity

namespace RuleKind

def name : RuleKind → String
  | .idiomatic => "idiomatic"
  | .style => "style"
  | .lint => "lint"

end RuleKind

namespace Change

/-- Carries out a change. The root of a tree can be neither taken out nor replaced. -/
def apply (change : Change) (tree : Tree) : Except Error Edit :=
  match change with
  | .remove [] => .error (.internal "cannot remove the root node")
  | .remove path => .ok (Edit.remove tree path)
  | .replace [] _ => .error (.internal "cannot replace the root node")
  | .replace path new => .ok (Edit.replace tree path new)

end Change

namespace Rule

def id (rule : Rule) : String := rule.description.id

def isCorrectable (rule : Rule) : Bool := !rule.description.corrections.isEmpty

/-- The way of configuring a rule that takes no options. -/
def takesNoOptions (id : String) (options : Value) : Except Error (Option Check) :=
  match options with
  | .null | .table [] => .ok none
  | _ => .error (.rule id "this rule does not take options")

/-- The rule with given options. -/
def configured (rule : Rule) (options : Value) : Except Error Rule :=
  (rule.configure options).map fun check? =>
    match check? with
    | some check => { rule with check := check }
    | none => rule

end Rule

/-- A violation as it is reported. -/
structure Violation where
  rule : String
  position : Position
  severity : Severity
  message : String
  deriving DecidableEq, Repr

/-- A change that was carried out. -/
structure Correction where
  rule : String
  position : Position
  deriving DecidableEq, Repr

namespace Violation

/-- A violation as a line for readers. -/
def render (violation : Violation) : String :=
  violation.position.render ++ ": " ++ violation.severity.name ++ ": " ++ violation.message ++
    " (" ++ violation.rule ++ ")"

end Violation

end SwiftTidy

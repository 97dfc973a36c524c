import SwiftTidy.Config.Problem
import SwiftTidy.Config.Settings
import SwiftTidy.Registry

/-!
# The rules that a configuration asks for

A configuration picks rules from a catalog. They keep the order of the catalog, whatever the order of the
settings is.
-/

namespace SwiftTidy

namespace Configuration

/-- Whether a rule runs under a setting. Without one, it runs if it is recommended and not opt-in. -/
def runs (configuration : Configuration) (rule : Rule) : Option Setting → Bool
  | some setting => !setting.isOff
  | none => configuration.recommended?.getD true && !rule.description.optIn

/-- A rule under a setting. -/
def activate (rule : Rule) (setting? : Option Setting) : Except Error ActiveRule :=
  let severity := ((setting?.bind Setting.level?).bind Level.severity?).getD rule.description.severity
  match setting?.bind Setting.options? with
  | none => .ok ⟨rule, severity⟩
  | some options =>
    match rule.configured options with
    | .ok rule => .ok ⟨rule, severity⟩
    | .error cause => .error (ConfigProblem.invalidOptions rule.id cause).error

/-- The rules of a list that run, in order. -/
def activeAmong (configuration : Configuration) : List Rule → Except Error (List ActiveRule)
  | [] => .ok []
  | rule :: rest =>
    let setting? := configuration.rules.lookup rule.id
    if configuration.runs rule setting? then do
      let active ← activate rule setting?
      return active :: (← configuration.activeAmong rest)
    else configuration.activeAmong rest

/-- Checks that every rule that is named is in the catalog. -/
def requireAll (registry : Registry) : List (String × Setting) → Except Error Unit
  | [] => .ok ()
  | (id, _) :: rest => do
    let _ ← registry.require id
    requireAll registry rest

/-- The rules of a catalog that a configuration asks for. A rule that is named has to be in the catalog even
if the linter does not run. -/
def activeRules (configuration : Configuration) (registry : Registry) :
    Except Error (List ActiveRule) := do
  requireAll registry configuration.rules
  if configuration.enabled? == some false then return []
  configuration.activeAmong registry.rules

end Configuration

namespace Linter

def ofConfiguration (configuration : Configuration) (registry : Registry) : Except Error Linter :=
  (configuration.activeRules registry).map Linter.mk

end Linter

end SwiftTidy

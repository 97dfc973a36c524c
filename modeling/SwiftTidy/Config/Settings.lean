import SwiftTidy.Linter

/-!
# Configurations

A configuration says whether the linter runs at all, whether the rules that are not asked for by name run, and
what is set for single rules.
-/

namespace SwiftTidy

open Data

/-- The severity that a configuration gives to a rule. -/
inductive Level where
  | off
  | warning
  /-- Its violations make the check fail. -/
  | error
  deriving DecidableEq, Repr

/-- What is set for a rule. -/
inductive Setting where
  | level (level : Level)
  /-- Perhaps a severity, and perhaps options. -/
  | detailed (level? : Option Level) (options? : Option Value)

/-- A configuration. -/
structure Configuration where
  /-- Whether the linter runs. It does if nothing is said. -/
  enabled? : Option Bool
  /-- Whether rules run that are not named and not opt-in. They do if nothing is said. -/
  recommended? : Option Bool
  /-- The settings of single rules, each identifier once. -/
  rules : List (String × Setting)

namespace Level

def name : Level → String
  | .off => "off"
  | .warning => "warning"
  | .error => "error"

def ofName? (name : String) : Option Level :=
  [Level.off, .warning, .error].find? fun level => level.name == name

/-- The severity of violations. A rule that is off has none. -/
def severity? : Level → Option Severity
  | .off => none
  | .warning => some .warning
  | .error => some .error

end Level

namespace Setting

def level? : Setting → Option Level
  | .level l => some l
  | .detailed l? _ => l?

def options? : Setting → Option Value
  | .level _ => none
  | .detailed _ options? => options?

def isOff (setting : Setting) : Bool := setting.level? == some .off

end Setting

namespace Configuration

def default : Configuration := ⟨none, none, []⟩

end Configuration

end SwiftTidy

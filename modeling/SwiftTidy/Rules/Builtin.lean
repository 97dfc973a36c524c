import SwiftTidy.Registry
import SwiftTidy.Rules.Expectation
import SwiftTidy.Rules.VoidReturn

/-!
# The rules that come with the library
-/

namespace SwiftTidy.Rules

def builtin : List Rule := [voidReturn true, expectation]

def registry : Registry := ⟨builtin⟩

/-- The identifiers differ, so the rules can be registered as one batch. -/
theorem ofRules_builtin : Registry.ofRules builtin = .ok registry := rfl

end SwiftTidy.Rules

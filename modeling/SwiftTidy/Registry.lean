import SwiftTidy.Rule.Basic

/-!
# The catalog of rules

Rules are registered in batches and kept in the order of registration, no two under the same identifier. A
batch with a clash is refused as a whole.
-/

namespace SwiftTidy

/-- The rules that can be configured, in order. -/
structure Registry where
  rules : List Rule

namespace Registry

def empty : Registry := ⟨[]⟩

def ids (registry : Registry) : List String := registry.rules.map Rule.id

def lookup (registry : Registry) (id : String) : Option Rule :=
  registry.rules.find? fun rule => rule.id == id

def require (registry : Registry) (id : String) : Except Error Rule :=
  match registry.lookup id with
  | some rule => .ok rule
  | none => .error (.unknownRule id)

/-- The first identifier of a batch that is taken, by an earlier rule of the batch or otherwise. -/
def clash? (taken : List String) : List Rule → Option String
  | [] => none
  | rule :: rest => if taken.contains rule.id then some rule.id else clash? (rule.id :: taken) rest

/-- Puts a rule in, in the place of the rule with its identifier, or else behind all others. -/
def insert (registry : Registry) (rule : Rule) : Registry :=
  if registry.ids.contains rule.id then
    ⟨registry.rules.map fun other => if other.id == rule.id then rule else other⟩
  else ⟨registry.rules ++ [rule]⟩

/-- Adds a batch of rules to the catalog at hand. The batch is looked through first, and its rules are put in only
if no identifier is taken. -/
def enroll (batch : List Rule) : EStateM Error Registry Unit := do
  let registry ← get
  match clash? registry.ids batch with
  | some id => throw (.duplicateRule id)
  | none => batch.forM fun rule => modify fun registry => registry.insert rule

/-- The catalog with a batch of rules added. -/
def register (registry : Registry) (batch : List Rule) : Except Error Registry :=
  match enroll batch registry with
  | .ok _ later => .ok later
  | .error error _ => .error error

def ofRules (batch : List Rule) : Except Error Registry := empty.register batch

end Registry

/-- A place for a catalog that is filled once. -/
structure RegistryCell where
  registry? : Option Registry

namespace RegistryCell

def empty : RegistryCell := ⟨none⟩

/-- The catalog in its place. If the place is empty, the catalog is built, and a failure leaves it empty. -/
def getOrBuild (cell : RegistryCell) (build : Unit → Except Error Registry) :
    Except Error (Registry × RegistryCell) :=
  match cell.registry? with
  | some registry => .ok (registry, cell)
  | none => (build ()).map fun registry => (registry, ⟨some registry⟩)

/-- The catalog in its place, built by what cannot fail. -/
def getOrPut (cell : RegistryCell) (build : Unit → Registry) : Registry × RegistryCell :=
  match cell.registry? with
  | some registry => (registry, cell)
  | none => let registry := build (); (registry, ⟨some registry⟩)

end RegistryCell

end SwiftTidy

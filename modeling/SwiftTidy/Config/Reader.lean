import SwiftTidy.Config.Problem
import SwiftTidy.Config.Settings
import SwiftTidy.Data.Json
import SwiftTidy.Data.Toml

/-!
# Reading configurations

A configuration is a table `linter` with the fields `enabled`, `recommended` and `rules`, in JSON or TOML. A
table with known fields may also be given as the list of their values. Fields that are not known are passed
over. What is set for a rule is a severity, or a table with a severity and options.
-/

namespace SwiftTidy.Config

open Data

/-- How the formats of configurations differ. -/
structure Format where
  /-- Whether the list of the values of `linter` may be longer than there are fields. -/
  allowsMore : Bool
  /-- How deep a value that is read may be nested, if there is a limit. -/
  depth? : Option Nat

/-- JSON. Three levels of nesting are used up where the settings of a rule begin. -/
def json : Format := ⟨false, some (Json.depthLimit - 3)⟩

def toml : Format := ⟨true, none⟩

mutual

def nesting : Document → Nat
  | .list items => nestingOf items + 1
  | .table fields => nestingIn fields + 1
  | _ => 0

def nestingOf : List Document → Nat
  | [] => 0
  | item :: rest => max (nesting item) (nestingOf rest)

def nestingIn : List (Option String × Document) → Nat
  | [] => 0
  | (_, item) :: rest => max (nesting item) (nestingIn rest)

end

def valueOf? (format : Format) (document : Document) : Option Value :=
  document.value? (format.depth?.getD (nesting document + 2))

/-- What stands under a known name, if anything. No name may be unreadable, and the known one may not
repeat. -/
def known? (name : String) (fields : List (Option String × Document)) : Option (Option Document) :=
  if fields.all fun field => field.1.isSome then
    match fields.filter fun field => field.1 == some name with
    | [] => some none
    | [field] => some (some field.2)
    | _ => none
  else none

def othersPassable (names : List String) (fields : List (Option String × Document)) : Bool :=
  fields.all fun field => field.1.any names.contains || field.2.isPassable

def switch? : Document → Option (Option Bool)
  | .null => some none
  | .bool b => some (some b)
  | _ => none

/-- A severity: its name, or a table that has nothing but an empty field of that name. -/
def level? : Document → Option Level
  | .text (some name) => Level.ofName? name
  | .table [(some name, .null)] => Level.ofName? name
  | _ => none

def optionalLevel? : Document → Option (Option Level)
  | .null => some none
  | document => (level? document).map some

def options? (format : Format) : Document → Option (Option Value)
  | .null => some none
  | document => (valueOf? format document).map some

/-- A setting with a severity and options. -/
def detailed? (format : Format) : Document → Option Setting
  | .table fields => do
    let level ← optionalLevel? ((← known? "severity" fields).getD .null)
    let options ← options? format ((← known? "options" fields).getD .null)
    return .detailed level options
  | .list [level, options] => do
    return .detailed (← optionalLevel? level) (← options? format options)
  | _ => none

/-- What is set for a rule. All of it has to be readable, also what is then passed over. -/
def setting? (format : Format) (document : Document) : Option Setting := do
  let _ ← valueOf? format document
  ((level? document).map Setting.level).or (detailed? format document)

/-- The settings of several rules, after the given ones. Of two settings for one rule the first gives the
place and the last the setting. -/
def settings? (format : Format) :
    List (Option String × Document) → List (String × Setting) → Option (List (String × Setting))
  | [], before => some before
  | (name?, document) :: rest, before => do
    let name ← name?
    let setting ← setting? format document
    settings? format rest (Value.putField name setting before)

def rules? (format : Format) : Document → Option (List (String × Setting))
  | .table fields => settings? format fields []
  | _ => none

/-- The table `linter`. -/
def linter? (format : Format) : Document → Option Configuration
  | .table fields => do
    guard (othersPassable ["enabled", "recommended", "rules"] fields)
    let enabled ← switch? ((← known? "enabled" fields).getD .null)
    let recommended ← switch? ((← known? "recommended" fields).getD .null)
    let rules ← rules? format ((← known? "rules" fields).getD (.table []))
    return ⟨enabled, recommended, rules⟩
  | .list (enabled :: recommended :: rest) => do
    let enabled ← switch? enabled
    let recommended ← switch? recommended
    let rules ← rules? format (rest.head?.getD (.table []))
    guard (rest.length ≤ 1 || format.allowsMore)
    return ⟨enabled, recommended, rules⟩
  | _ => none

/-- The configuration that a document is. -/
def configuration? (format : Format) : Document → Option Configuration
  | .table fields => do
    guard (othersPassable ["linter"] fields)
    match ← known? "linter" fields with
    | some document => linter? format document
    | none => return Configuration.default
  | .list [] => some Configuration.default
  | .list [document] => linter? format document
  | _ => none

end SwiftTidy.Config

namespace SwiftTidy.Configuration

open Data

/-- What was read, or the complaint that it cannot be read. -/
def orUnreadable (read? : Option Configuration) : Except Error Configuration :=
  match read? with
  | some configuration => .ok configuration
  | none => .error ConfigProblem.unreadable.error

def ofJson (text : String) : Except Error Configuration :=
  orUnreadable ((Json.parse? text).bind (Config.configuration? Config.json))

def ofToml (text : String) : Except Error Configuration :=
  orUnreadable ((Toml.parse? text).bind (Config.configuration? Config.toml))

end SwiftTidy.Configuration

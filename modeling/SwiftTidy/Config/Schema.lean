import SwiftTidy.Config.Settings

/-!
# The schema of a configuration

What a configuration may hold, as a JSON schema for editors.
-/

namespace SwiftTidy.Config

open Data

namespace Schema

def type (name : String) : String × Value := ("type", .text name)

def about (text : String) : String × Value := ("description", .text text)

def reference (name : String) : String × Value := ("$ref", .text ("#/$defs/" ++ name))

def switch (text : String) : Value :=
  .table [about text, ("type", .list [.text "boolean", .text "null"])]

def level (level : Level) (text : String) : Value :=
  .table [about text, type "string", ("const", .text level.name)]

/-- The table `linter`. -/
def linter : Value :=
  .table [about "Linter configuration", type "object",
    ("properties", .table [
      ("enabled", switch "Enable or disable the linter"),
      ("recommended", switch "Enable all recommended rules"),
      ("rules", .table [about "Rule severity and options by rule identifier", type "object",
        ("additionalProperties", .table [reference "RuleSetting"]), ("default", .table [])])])]

/-- A severity and options. -/
def detailed : Value :=
  .table [about "Severity override and rule-specific options", type "object",
    ("properties", .table [
      ("severity", .table [about "Severity override; the rule default when omitted",
        ("anyOf", .list [.table [reference "RuleSeverity"], .table [type "null"]])]),
      ("options", .table [about "Options understood by the rule"])])]

/-- What is set for a rule. -/
def setting : Value :=
  .table [about "A rule entry: a bare severity or a table with options",
    ("anyOf", .list [.table [reference "RuleSeverity"], .table [reference "RuleConfig"]])]

/-- The severities. -/
def levels : Value :=
  .table [about "Rule severity levels",
    ("oneOf", .list [level .off "Disable the rule", level .warning "Warning (doesn't fail build)",
      level .error "Error (fails build)"])]

end Schema

/-- The schema of a configuration. -/
def schema : Value :=
  .table [
    ("$schema", .text "https://json-schema.org/draft/2020-12/schema"),
    ("title", .text "Configuration"),
    Schema.about "Top-level configuration file",
    Schema.type "object",
    ("properties", .table [
      ("linter", .table [Schema.about "Linter configuration", Schema.reference "LinterConfiguration",
        ("default", .table [("enabled", .null), ("recommended", .null), ("rules", .table [])])])]),
    ("$defs", .table [
      ("LinterConfiguration", Schema.linter), ("RuleSetting", Schema.setting),
      ("RuleSeverity", Schema.levels), ("RuleConfig", Schema.detailed)])]

end SwiftTidy.Config

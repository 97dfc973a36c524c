import SwiftTidy.Error

/-!
# Problems with configurations
-/

namespace SwiftTidy

/-- Why there is no configuration. -/
inductive ConfigProblem where
  /-- The document cannot be read, or does not have the form of a configuration. -/
  | unreadable
  | unknownFormat (path : String)
  /-- The file that was asked for is not there. -/
  | notFound (path : String)
  /-- The place to start looking from is not there. -/
  | invalidPath (cause : String)
  | invalidOptions (rule : String) (cause : Error)
  | notLoaded (path message : String)

namespace ConfigProblem

/-- What a reader is told. The words of the parser about a document are left open: `<parser message>`
stands for them. -/
def message : ConfigProblem → String
  | .unreadable => "<parser message>"
  | .unknownFormat path =>
    "Unsupported file extension for '" ++ path ++ "' (expected .toml or .json)"
  | .notFound path => "Config file not found: " ++ path
  | .invalidPath cause => "Invalid path: " ++ cause
  | .invalidOptions rule cause => "Invalid options for '" ++ rule ++ "': " ++ cause.message
  | .notLoaded path message => "Failed to load config from '" ++ path ++ "': " ++ message

def error (problem : ConfigProblem) : Error := .config problem.message

end ConfigProblem

end SwiftTidy

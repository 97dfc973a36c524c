/-!
# Errors

What can go wrong outside the text that is checked: configuration, the catalog of rules, the rules
themselves, and files. Some errors concern one place or one file only, and a run may go on without it.
-/

namespace SwiftTidy

/-- The families of errors. -/
inductive ErrorKind where
  | config
  /-- The catalog of rules does not fit the request. -/
  | registry
  | rule
  | io
  /-- The library was used in a way that it does not support. -/
  | internal
  deriving DecidableEq, Repr

/-- An error. -/
inductive Error where
  /-- The configuration cannot be loaded or does not fit the rules. -/
  | config (message : String)
  /-- Two rules have the same identifier. -/
  | duplicateRule (id : String)
  | unknownRule (id : String)
  /-- A rule failed in finding or changing a place, or refused its options. -/
  | rule (id message : String)
  | io (path cause : String)
  /-- Something was asked for that cannot be done. -/
  | internal (message : String)
  deriving DecidableEq, Repr

namespace Error

/-- The family of an error. -/
def kind : Error → ErrorKind
  | .config _ => .config
  | .duplicateRule _ | .unknownRule _ => .registry
  | .rule _ _ => .rule
  | .io _ _ => .io
  | .internal _ => .internal

def isRecoverable (error : Error) : Bool :=
  match error.kind with
  | .rule | .io => true
  | _ => false

/-- What a reader is told. -/
def message : Error → String
  | .config message => "Configuration error: " ++ message
  | .duplicateRule id => "Duplicate rule identifier '" ++ id ++ "'"
  | .unknownRule id => "Unknown rule '" ++ id ++ "'"
  | .rule id message => "Rule error in '" ++ id ++ "': " ++ message
  | .io path cause => "IO error for path '" ++ path ++ "': " ++ cause
  | .internal message => "Internal error: " ++ message

/-- Leaves out a result whose error is recoverable, and keeps any other error. -/
def recover {α : Type} : Except Error α → Except Error (Option α)
  | .ok a => .ok (some a)
  | .error error => if error.isRecoverable then .ok none else .error error

def skip {α : Type} : Except Error α → Option α
  | .ok a => some a
  | .error _ => none

end Error

end SwiftTidy

import SwiftTidy.Error
import SwiftTidy.Text.Blank

/-!
# Files

A file system as a value: what stands at which location, and the directory that relative paths start from. A
path is followed step by step as it is written, so each step but the last has to lead to a directory.
-/

namespace SwiftTidy

/-- A place in a file system: the names on the way to it from the top. -/
abbrev Location := List String

/-- What can stand at a location. -/
inductive Entry where
  | directory
  | file (bytes : List UInt8)
  deriving DecidableEq, Repr

/-- Why a file cannot be read. -/
inductive FileProblem where
  | missing
  | isDirectory
  | notDirectory
  | notText
  deriving DecidableEq, Repr

/-- A file system. -/
structure FileSystem where
  /-- What stands where. Of two entries for one location the first counts. The directories on the way to an
  entry are there without being listed. -/
  entries : List (Location × Entry)
  /-- The directory that relative paths start from. -/
  current : Location

namespace Location

/-- The names of a location as a path. The slash that an absolute path begins with is left out, so
that `/a/b` is written `a/b`. Only the top itself is a slash. -/
def render (location : Location) : String :=
  if location.isEmpty then "/" else "/".intercalate location

end Location

namespace FileProblem

/-- What a reader is told. -/
def message : FileProblem → String
  | .missing => "No such file or directory (os error 2)"
  | .isDirectory => "Is a directory (os error 21)"
  | .notDirectory => "Not a directory (os error 20)"
  | .notText => "stream did not contain valid UTF-8"

end FileProblem

namespace FileSystem

/-- What stands at a location. -/
def entry? (files : FileSystem) (location : Location) : Option Entry :=
  match files.entries.lookup location with
  | some entry => some entry
  | none =>
    let isOnTheWay := location.isPrefixOf files.current ||
      files.entries.any fun entry => location.isPrefixOf entry.1
    if isOnTheWay then some .directory else none

def isFile (files : FileSystem) (location : Location) : Bool :=
  match files.entry? location with
  | some (.file _) => true
  | _ => false

/-- One step of a path. -/
def step (files : FileSystem) (location : Location) (name : String) : Except FileProblem Location :=
  match files.entry? location with
  | none => .error .missing
  | some (.file _) => .error .notDirectory
  | some .directory =>
    if name == "" || name == "." then .ok location
    else if name == ".." then .ok location.dropLast
    else if (files.entry? (location ++ [name])).isSome then .ok (location ++ [name])
    else .error .missing

/-- The location that a path leads to. -/
def locate (files : FileSystem) (path : String) : Except FileProblem Location :=
  if path == "" then .error .missing
  else
    let start := if path.toList.head? == some '/' then [] else files.current
    (path.splitOn "/").foldlM files.step start

def contains (files : FileSystem) (path : String) : Bool :=
  match files.locate path with
  | .ok _ => true
  | .error _ => false

/-- The text of the file at a location. -/
def textAt (files : FileSystem) (location : Location) : Except FileProblem String :=
  match files.entry? location with
  | none => .error .missing
  | some .directory => .error .isDirectory
  | some (.file bytes) =>
    match String.fromUTF8? (ByteArray.mk bytes.toArray) with
    | some text => .ok text
    | none => .error .notText

def textOf (files : FileSystem) (path : String) : Except FileProblem String := do
  files.textAt (← files.locate path)

def orIoError {α : Type} (path : String) : Except FileProblem α → Except Error α
  | .ok a => .ok a
  | .error problem => .error (.io path problem.message)

def readText (files : FileSystem) (path : String) : Except Error String :=
  orIoError path (files.textOf path)

end FileSystem

namespace Path

/-- The extension of the last name of a path: what follows its last point, unless nothing stands before
it. -/
def extensionOf? (path : String) : Option String :=
  let name := ((path.splitOn "/").getLast?.getD "").toList.reverse
  let after := name.takeWhile (· != '.')
  match name.dropWhile (· != '.') with
  | '.' :: _ :: _ => some (String.ofList after.reverse)
  | _ => none

end Path

end SwiftTidy

import SwiftTidy.Config.Reader
import SwiftTidy.Files

/-!
# Finding and loading configurations

A configuration is looked for in a directory and then in the directories above it. The nearest one counts,
and in one directory the order of the file names decides.
-/

namespace SwiftTidy

namespace Configuration

def fileNames : List String := [".kestrel.toml", "kestrel.toml", "kestrel.json"]

def upward (location : Location) : List Location :=
  ((List.range (location.length + 1)).map location.take).reverse

def candidates (location : Location) : List Location :=
  (upward location).flatMap fun directory => fileNames.map fun name => directory ++ [name]

def discoverFrom (files : FileSystem) (location : Location) : Option Location :=
  (candidates location).find? files.isFile

/-- The configuration file that counts where a path leads to. -/
def discover (files : FileSystem) (path : String) : Except Error (Option Location) :=
  match files.locate path with
  | .ok location => .ok (discoverFrom files location)
  | .error problem => .error (ConfigProblem.invalidPath problem.message).error

/-- Reads the text of a configuration file in the format that the extension of its path names. -/
def ofFile (path text : String) : Except Error Configuration :=
  match Path.extensionOf? path with
  | some "toml" => ofToml text
  | some "json" => ofJson text
  | _ => .error (ConfigProblem.unknownFormat path).error

/-- Names the file in a complaint about its content. -/
def naming (path : String) : Except Error Configuration → Except Error Configuration
  | .error (.config message) => .error (ConfigProblem.notLoaded path message).error
  | result => result

def load (files : FileSystem) (path : String) : Except Error Configuration := do
  ofFile path (← files.readText path)

def loadFile (files : FileSystem) (path : String) : Except Error Configuration :=
  naming path (load files path)

/-- Reads the configuration file at a location, and names the file in a complaint. -/
def loadLocation (files : FileSystem) (location : Location) : Except Error Configuration :=
  let path := location.render
  naming path do ofFile path (← FileSystem.orIoError path (files.textAt location))

/-- Reads the configuration file at a path, which has to be there, or else the one that counts at the place
to start from. Where none counts, the configuration says nothing. -/
def loadOrDiscover (files : FileSystem) (path? start? : Option String) : Except Error Configuration :=
  match path? with
  | some path =>
    if files.contains path then loadFile files path
    else .error (ConfigProblem.notFound path).error
  | none => do
    match ← discover files (start?.getD ".") with
    | some location => loadLocation files location
    | none => return default

end Configuration

end SwiftTidy

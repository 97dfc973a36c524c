import SwiftTidy.Data.Toml.Table
import SwiftTidy.Data.Toml.Text

/-!
# TOML

Reading documents in TOML. The fields of a table are in the order of their names.
-/

namespace SwiftTidy.Data.Toml

/-! ## Blanks and comments -/

/-- What follows the blanks at the start of `cs`. -/
def skipSpace (cs : List Char) : List Char := cs.dropWhile fun c => c == ' ' || c == '\t'

/-- What follows a comment, if `cs` begins with one. Nothing, if the comment is not well formed. -/
def skipComment? : List Char → Option (List Char)
  | '#' :: cs =>
    let isEnd (c : Char) : Bool := c == '\n' || c == '\r'
    if (cs.takeWhile fun c => !isEnd c).any isControl then none
    else some (cs.dropWhile fun c => !isEnd c)
  | cs => some cs

/-- What follows a line end. The end of the text is one, too. -/
def lineEnd? : List Char → Option (List Char)
  | [] => some []
  | '\n' :: cs => some cs
  | '\r' :: '\n' :: cs => some cs
  | _ => none

def restOfLine? (cs : List Char) : Option (List Char) := do
  lineEnd? (← skipComment? (skipSpace cs))

/-- What follows blanks, comments and line ends. The number bounds the steps taken. -/
def skipLines? : Nat → List Char → Option (List Char)
  | 0, _ => none
  | steps + 1, cs =>
    match skipSpace cs with
    | '\n' :: rest => skipLines? steps rest
    | '\r' :: '\n' :: rest => skipLines? steps rest
    | '#' :: rest => do skipLines? steps (← skipComment? ('#' :: rest))
    | rest => some rest

/-! ## Keys -/

def isKeyChar (c : Char) : Bool := c.isAlphanum || c == '_' || c == '-'

/-- One name of a key, and what follows it. -/
def name? (cs : List Char) : Option (String × List Char) :=
  match cs with
  | '"' :: rest => (basic? rest).map fun (name, rest) => (String.ofList name, rest)
  | '\'' :: rest => (literal? rest).map fun (name, rest) => (String.ofList name, rest)
  | _ =>
    let name := cs.takeWhile isKeyChar
    if name.isEmpty then none else some (String.ofList name, cs.dropWhile isKeyChar)

/-- The names of a key, parted by points: the last of them behind the others, and what follows. The number
bounds the steps taken. -/
def names? : Nat → List Char → Option ((List String × String) × List Char)
  | 0, _ => none
  | steps + 1, cs => do
    let (name, rest) ← name? (skipSpace cs)
    match skipSpace rest with
    | '.' :: rest =>
      let ((path, last), rest) ← names? steps rest
      return ((name :: path, last), rest)
    | rest => return (([], name), rest)

def depthLimit : Nat := 80

/-- A key: a name behind the names of the tables that lead to it, and what follows. -/
def key? (cs : List Char) : Option ((List String × String) × List Char) :=
  (names? (cs.length + 1) cs).filter fun ((path, _), _) => path.length < depthLimit

/-! ## Values -/

/-- Whether a character ends a value without quotes. -/
def endsScalar (c : Char) : Bool :=
  c == ' ' || c == '\t' || c == '\n' || c == '\r' || c == '#' || c == ',' || c == '=' || c == '[' ||
    c == ']' || c == '{' || c == '}'

def timeFollows (cs rest : List Char) : Bool :=
  match date? cs, rest with
  | some (_, []), ' ' :: a :: b :: _ => a.isDigit && b.isDigit
  | _, _ => false

/-- A value without quotes, and what follows it. -/
def unquoted? (cs : List Char) : Option (Document × List Char) :=
  let first := cs.takeWhile fun c => !endsScalar c
  let rest := cs.dropWhile fun c => !endsScalar c
  if timeFollows first rest then
    let second := (rest.drop 1).takeWhile fun c => !endsScalar c
    (scalar? (first ++ ' ' :: second)).map fun document =>
      (document, (rest.drop 1).dropWhile fun c => !endsScalar c)
  else (scalar? first).map fun document => (document, rest)

mutual

/-- A value within `depth` lists and tables, and what follows it. The number bounds the steps taken. -/
def value? : Nat → Nat → List Char → Option (Document × List Char)
  | 0, _, _ => none
  | steps + 1, depth, cs =>
    match cs with
    | '"' :: _ | '\'' :: _ =>
      (text? cs).map fun (text, rest) => (.text (some (String.ofList text)), rest)
    | '[' :: rest =>
      if depth < depthLimit then
        (items? steps (depth + 1) rest).map fun (items, rest) => (.list items, rest)
      else none
    | '{' :: rest =>
      if depth < depthLimit then
        (pairs? steps (depth + 1) rest []).map fun (fields, rest) =>
          (tableOf (fieldDocuments fields), rest)
      else none
    | _ => unquoted? cs

/-- The items of a list up to its closing bracket. -/
def items? : Nat → Nat → List Char → Option (List Document × List Char)
  | 0, _, _ => none
  | steps + 1, depth, cs => do
    match ← skipLines? (cs.length + 1) cs with
    | ']' :: rest => return ([], rest)
    | rest =>
      let (item, rest) ← value? steps depth rest
      match ← skipLines? (rest.length + 1) rest with
      | ']' :: rest => return ([item], rest)
      | ',' :: rest =>
        let (items, rest) ← items? steps depth rest
        return (item :: items, rest)
      | _ => none

/-- The fields of a table up to its closing brace, after the given ones. Lines may end anywhere but inside a
key. -/
def pairs? : Nat → Nat → List Char → Fields → Option (Fields × List Char)
  | 0, _, _, _ => none
  | steps + 1, depth, cs, fields => do
    match ← skipLines? (cs.length + 1) cs with
    | '}' :: rest => return (fields, rest)
    | rest =>
      let ((path, name), rest) ← key? rest
      let '=' :: rest ← skipLines? (rest.length + 1) rest | none
      let (document, rest) ← value? steps depth (← skipLines? (rest.length + 1) rest)
      let fields ← put path name document .opened fields
      match ← skipLines? (rest.length + 1) rest with
      | '}' :: rest => return (fields, rest)
      | ',' :: rest => pairs? steps depth rest fields
      | _ => none

end

/-! ## Lines -/

/-- Where the reading of a document stands. -/
structure Reading where
  fields : Fields
  /-- The way to the table that was opened last. -/
  here : List String

/-- A line that opens a table, behind its bracket. -/
def opening? (reading : Reading) (listed : Bool) (cs : List Char) : Option (Reading × List Char) := do
  let ((path, name), rest) ← key? cs
  let ']' :: rest := rest | none
  let change := if listed then openListed name else openTable name
  let fields ← changeAt false change path .opened reading.fields
  return (⟨fields, path ++ [name]⟩, rest)

/-- A line that puts a value. -/
def setting? (reading : Reading) (cs : List Char) : Option (Reading × List Char) := do
  let ((path, name), rest) ← key? cs
  let '=' :: rest := rest | none
  let (document, rest) ← value? (2 * rest.length + 2) 0 (skipSpace rest)
  let fields ← changeAt false (put path name document) reading.here .opened reading.fields
  return ({ reading with fields := fields }, rest)

/-- The line at the start of `cs`, and what follows it. -/
def line? (reading : Reading) (cs : List Char) : Option (Reading × List Char) :=
  match cs with
  | '[' :: '[' :: rest => do
    let (reading, rest) ← opening? reading true rest
    let ']' :: rest := rest | none
    return (reading, ← restOfLine? rest)
  | '[' :: rest => do
    let (reading, rest) ← opening? reading false rest
    return (reading, ← restOfLine? rest)
  | _ => do
    let (reading, rest) ← setting? reading cs
    return (reading, ← restOfLine? rest)

/-- Reads line after line. The number bounds the steps taken. -/
def lines? : Nat → Reading → List Char → Option Fields
  | 0, _, _ => none
  | steps + 1, reading, cs => do
    match ← skipLines? (cs.length + 1) cs with
    | [] => return reading.fields
    | rest =>
      let (reading, rest) ← line? reading rest
      lines? steps reading rest

/-- The document that a text is. A mark of the byte order at its start is passed over. -/
def parse? (text : String) : Option Document :=
  let cs := text.toList
  let cs := if cs.head? == some (Char.ofNat 0xFEFF) then cs.drop 1 else cs
  (lines? (cs.length + 1) ⟨[], []⟩ cs).map fun fields => tableOf (fieldDocuments fields)

end SwiftTidy.Data.Toml

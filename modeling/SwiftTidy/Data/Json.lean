import SwiftTidy.Data.Document

/-!
# JSON

Reading and writing documents in JSON. The grammar is followed to the letter: no comments, no trailing
commas, no control characters in texts. A number is whole if it has no fraction and no exponent and
fits 64 bits, and a float otherwise.
-/

namespace SwiftTidy.Data.Json

/-! ## Numbers -/

/-- The digits of a number literal. -/
structure Literal where
  /-- Whether a minus sign stands in front. -/
  negative : Bool
  whole : List Char
  /-- The digits after the point, if there is one. -/
  fraction : Option (List Char)
  /-- The exponent, as its sign and digits, if there is one. -/
  exponent : Option (Bool × List Char)

def digitValue (c : Char) : Nat := c.toNat - '0'.toNat

/-- Appends digits to a significand as long as it fits 64 bits, and gives the digits left over. -/
def absorb (significand : Nat) : List Char → Nat × List Char
  | [] => (significand, [])
  | d :: ds =>
    let next := significand * 10 + digitValue d
    if next < Nat.pow 2 64 then absorb next ds else (significand, d :: ds)

def powerOfTen (n : Nat) : Float := Float.ofScientific 1 false n

/-- A float divided by a power of ten, in steps that are powers of ten themselves. -/
def scaleDown (x : Float) (n : Nat) : Float :=
  if n ≤ 308 then x / powerOfTen n
  else if x == 0 then x
  else scaleDown (x / powerOfTen 308) (n - 308)
termination_by n

/-- A significand times a power of ten, unless that is out of range. -/
def scaled? (significand : Nat) (exponent : Int) : Option Float :=
  let x := Float.ofNat significand
  if exponent < 0 then some (scaleDown x (-exponent).toNat)
  else if exponent ≤ 308 then
    let y := x * powerOfTen exponent.toNat
    if y.isInf then none else some y
  else if x == 0 then some x
  else none

def digitsValue (ds : List Char) : Nat := ds.foldl (fun n d => n * 10 + digitValue d) 0

/-- The magnitude of a literal that is not whole. Digits beyond those that fit 64 bits only count for
the power of ten if they stand before the point. -/
def Literal.magnitude? (l : Literal) : Option Float :=
  let (significand, spare) := absorb 0 l.whole
  let (significand, left) := absorb significand (l.fraction.getD [])
  let used := (l.fraction.getD []).length - left.length
  let places : Int := spare.length - used
  match l.exponent with
  | none => scaled? significand places
  | some (negative, digits) =>
    let exponent := digitsValue digits
    if exponent ≥ Nat.pow 2 31 then
      if significand != 0 && !negative then none else some 0
    else
      scaled? significand (if negative then places - exponent else places + exponent)

/-- The number that a literal stands for. -/
def Literal.number? (l : Literal) : Option Number :=
  let (significand, spare) := absorb 0 l.whole
  let isWhole := spare.isEmpty && l.fraction.isNone && l.exponent.isNone
  if isWhole && !l.negative then
    some (.int significand)
  else if isWhole && significand != 0 && significand ≤ Nat.pow 2 63 then
    some (.int (-(significand : Int)))
  else
    (if isWhole then some (Float.ofNat significand) else l.magnitude?).map fun x =>
      .real (if l.negative then -x else x)

def digits? (cs : List Char) : Option (List Char × List Char) :=
  match cs.takeWhile Char.isDigit with
  | [] => none
  | ds => some (ds, cs.dropWhile Char.isDigit)

def fraction? : List Char → Option (Option (List Char) × List Char)
  | '.' :: cs => (digits? cs).map fun (ds, rest) => (some ds, rest)
  | cs => some (none, cs)

/-- The exponent of a number. -/
def exponent? : List Char → Option (Option (Bool × List Char) × List Char)
  | c :: cs =>
    if c == 'e' || c == 'E' then
      match cs with
      | '-' :: rest => (digits? rest).map fun (ds, rest) => (some (true, ds), rest)
      | '+' :: rest => (digits? rest).map fun (ds, rest) => (some (false, ds), rest)
      | rest => (digits? rest).map fun (ds, rest) => (some (false, ds), rest)
    else
      some (none, c :: cs)
  | [] => some (none, [])

/-- A number, without its sign. A zero in front stands alone. -/
def unsigned? (negative : Bool) (cs : List Char) : Option (Literal × List Char) := do
  let (whole, rest) ←
    match cs with
    | '0' :: rest => some (['0'], rest)
    | _ => digits? cs
  let (fraction, rest) ← fraction? rest
  let (exponent, rest) ← exponent? rest
  return (⟨negative, whole, fraction, exponent⟩, rest)

def literal? : List Char → Option (Literal × List Char)
  | '-' :: cs => unsigned? true cs
  | cs => unsigned? false cs

/-! ## Texts -/

/-- A piece of a text: a character, or a 16-bit unit given by its number. -/
inductive Piece where
  | char (c : Char)
  | unit (n : Nat)

/-- The value of a hexadecimal digit. -/
def hexValue? (c : Char) : Option Nat :=
  if c.isDigit then some (c.toNat - '0'.toNat)
  else if 'a' ≤ c && c ≤ 'f' then some (c.toNat - 'a'.toNat + 10)
  else if 'A' ≤ c && c ≤ 'F' then some (c.toNat - 'A'.toNat + 10)
  else none

def hexNumber? (ds : List Char) : Option Nat :=
  ds.foldlM (fun n d => (hexValue? d).map (n * 16 + ·)) 0

/-- The character that an escape of one letter stands for. -/
def shortEscape? : Char → Option Char
  | '"' => some '"'
  | '\\' => some '\\'
  | '/' => some '/'
  | 'b' => some '\x08'
  | 'f' => some '\x0c'
  | 'n' => some '\n'
  | 'r' => some '\r'
  | 't' => some '\t'
  | _ => none

/-- The pieces of a text after its first quote, and what follows its last one. -/
def pieces? : List Char → Option (List Piece × List Char)
  | [] => none
  | '"' :: cs => some ([], cs)
  | '\\' :: 'u' :: a :: b :: c :: d :: cs => do
    let n ← hexNumber? [a, b, c, d]
    let (rest, after) ← pieces? cs
    return (.unit n :: rest, after)
  | '\\' :: c :: cs => do
    let e ← shortEscape? c
    let (rest, after) ← pieces? cs
    return (.char e :: rest, after)
  | c :: cs =>
    if c.toNat < 32 || c == '\\' then none
    else do
      let (rest, after) ← pieces? cs
      return (.char c :: rest, after)

/-- The characters of a row of pieces. Two units that form a pair are one character, and a unit that
should have a partner and has none is no character at all. -/
def characters? : List Piece → Option (List Char)
  | [] => some []
  | .char c :: rest => (characters? rest).map (c :: ·)
  | .unit high :: .unit low :: rest =>
    if 0xD800 ≤ high && high < 0xDC00 then
      if 0xDC00 ≤ low && low < 0xE000 then
        let c := Char.ofNat (0x10000 + (high - 0xD800) * 0x400 + (low - 0xDC00))
        (characters? rest).map (c :: ·)
      else none
    else if 0xDC00 ≤ high && high < 0xE000 then none
    else (characters? (.unit low :: rest)).map (Char.ofNat high :: ·)
  | .unit n :: rest =>
    if 0xD800 ≤ n && n < 0xE000 then none else (characters? rest).map (Char.ofNat n :: ·)

def text? (cs : List Char) : Option (Option String × List Char) :=
  (pieces? cs).map fun (pieces, rest) => ((characters? pieces).map String.ofList, rest)

/-! ## Documents -/

def skipBlanks (cs : List Char) : List Char :=
  cs.dropWhile fun c => c == ' ' || c == '\n' || c == '\t' || c == '\r'

def after? (word : String) (cs : List Char) : Option (List Char) :=
  if word.toList.isPrefixOf cs then some (cs.drop word.length) else none

mutual

/-- A document at the start of a text, and what follows it. The number bounds the steps taken. -/
def document? : Nat → List Char → Option (Document × List Char)
  | 0, _ => none
  | steps + 1, cs =>
    match skipBlanks cs with
    | [] => none
    | '"' :: rest => (text? rest).map fun (s?, rest) => (.text s?, rest)
    | '[' :: rest =>
      match skipBlanks rest with
      | ']' :: rest => some (.list [], rest)
      | rest => (items? steps rest).map fun (items, rest) => (.list items, rest)
    | '{' :: rest =>
      match skipBlanks rest with
      | '}' :: rest => some (.table [], rest)
      | rest => (fields? steps rest).map fun (fields, rest) => (.table fields, rest)
    | 'n' :: rest => (after? "ull" rest).map fun rest => (.null, rest)
    | 't' :: rest => (after? "rue" rest).map fun rest => (.bool true, rest)
    | 'f' :: rest => (after? "alse" rest).map fun rest => (.bool false, rest)
    | rest => (literal? rest).map fun (l, rest) => (.number l.number?, rest)

/-- The items of a list up to its closing bracket. -/
def items? : Nat → List Char → Option (List Document × List Char)
  | 0, _ => none
  | steps + 1, cs => do
    let (item, rest) ← document? steps cs
    match skipBlanks rest with
    | ']' :: rest => return ([item], rest)
    | ',' :: rest =>
      let (items, rest) ← items? steps rest
      return (item :: items, rest)
    | _ => none

/-- The fields of a table up to its closing brace. -/
def fields? : Nat → List Char → Option (List (Option String × Document) × List Char)
  | 0, _ => none
  | steps + 1, cs => do
    let '"' :: rest := skipBlanks cs | none
    let (name, rest) ← text? rest
    let ':' :: rest := skipBlanks rest | none
    let (item, rest) ← document? steps rest
    match skipBlanks rest with
    | '}' :: rest => return ([(name, item)], rest)
    | ',' :: rest =>
      let (fields, rest) ← fields? steps rest
      return ((name, item) :: fields, rest)
    | _ => none

end

/-- The document that a text is. -/
def parse? (text : String) : Option Document := do
  let cs := text.toList
  let (document, rest) ← document? (2 * cs.length + 2) cs
  if (skipBlanks rest).isEmpty then some document else none

def depthLimit : Nat := 128

/-! ## Writing -/

/-- How a character stands in a text. -/
def writeChar (c : Char) : String :=
  match c with
  | '"' => "\\\""
  | '\\' => "\\\\"
  | '\n' => "\\n"
  | '\r' => "\\r"
  | '\t' => "\\t"
  | c =>
    if c.toNat < 32 then
      let hex := Nat.toDigits 16 c.toNat
      "\\u" ++ String.ofList (List.replicate (4 - hex.length) '0' ++ hex)
    else String.singleton c

def writeText (s : String) : String := "\"" ++ String.join (s.toList.map writeChar) ++ "\""

def writeNumber : Number → String
  | .int n => toString n
  | .real x => Layout.compact.render x

mutual

/-- A value in JSON, without blanks. -/
def write : Value → String
  | .null => "null"
  | .bool b => if b then "true" else "false"
  | .number n => writeNumber n
  | .text s => writeText s
  | .list items => "[" ++ ",".intercalate (writeItems items) ++ "]"
  | .table fields => "\x7b" ++ ",".intercalate (writeFields fields) ++ "\x7d"

def writeItems : List Value → List String
  | [] => []
  | item :: rest => write item :: writeItems rest

def writeFields : List (String × Value) → List String
  | [] => []
  | (name, item) :: rest => (writeText name ++ ":" ++ write item) :: writeFields rest

end

end SwiftTidy.Data.Json

import SwiftTidy.Text.Blank

/-!
# Lines and positions

A text is counted in bytes, and shown to people in lines and columns. A line ends after a line feed, after a
carriage return, or after both together. Lines and columns are counted from one, and a column counts
characters.
-/

namespace SwiftTidy

open Text

/-- A point of a text. -/
structure Position where
  offset : Nat
  line : Nat
  column : Nat
  deriving DecidableEq, Repr, Inhabited

namespace Position

def render (position : Position) : String :=
  toString position.line ++ ":" ++ toString position.column

end Position

/-- A stretch of a text between two positions. The second one is not part of it. -/
structure Extent where
  start : Position
  stop : Position
  deriving DecidableEq, Repr

namespace Extent

def between? (start stop : Position) : Option Extent :=
  if start.offset ≤ stop.offset then some ⟨start, stop⟩ else none

def contains (extent : Extent) (offset : Nat) : Bool :=
  extent.start.offset ≤ offset && offset < extent.stop.offset

def covers (extent inner : Extent) : Bool :=
  extent.start.offset ≤ inner.start.offset && inner.stop.offset ≤ extent.stop.offset

def size (extent : Extent) : Nat := extent.stop.offset - extent.start.offset

end Extent

/-- A text that is counted in lines. -/
structure Lines where
  chars : List Char

namespace Lines

def ofText (text : String) : Lines := ⟨text.toList⟩

def size (lines : Lines) : Nat := byteLength lines.chars

/-- Whether a line ends right after the character `c` with `rest` behind it. A carriage return with a
line feed behind it does not end a line, the line feed does. -/
def endsLine (c : Char) (rest : List Char) : Bool :=
  c == '\n' || (c == '\r' && rest.head? != some '\n')

/-- The offsets at which a line begins after a line end in `cs`, where `cs` stands at `offset`. -/
def startsIn (offset : Nat) : List Char → List Nat
  | [] => []
  | c :: rest =>
    let next := offset + c.utf8Size
    if endsLine c rest then next :: startsIn next rest else startsIn next rest

def starts (lines : Lines) : List Nat := 0 :: startsIn 0 lines.chars

/-- The number of lines. A line end at the end of the text has an empty line behind it. -/
def count (lines : Lines) : Nat := lines.starts.length

def dropBytes : Nat → List Char → List Char
  | 0, cs => cs
  | _ + 1, [] => []
  | n + 1, c :: rest => dropBytes (n + 1 - c.utf8Size) rest

/-- How many of the characters take up exactly `n` bytes, if the `n`th byte ends a character. -/
def charsIn? : Nat → List Char → Option Nat
  | 0, _ => some 0
  | _ + 1, [] => none
  | n + 1, c :: rest =>
    if c.utf8Size ≤ n + 1 then (charsIn? (n + 1 - c.utf8Size) rest).map (· + 1) else none

/-- The position of an offset. An offset past the end has the position of the end. For an offset within a
character the column counts the bytes of the line. -/
def position (lines : Lines) (offset : Nat) : Position :=
  let offset := min offset lines.size
  let begun := lines.starts.filter (· ≤ offset)
  let start := begun.getLastD 0
  let bytes := offset - start
  ⟨offset, begun.length, (charsIn? bytes (dropBytes start lines.chars)).getD bytes + 1⟩

def start? (lines : Lines) (line : Nat) : Option Nat :=
  if line = 0 then none else lines.starts[line - 1]?

/-- The offset at which a line ends, before its line end. -/
def stop? (lines : Lines) (line : Nat) : Option Nat :=
  (lines.start? line).map fun start =>
    start + byteLength ((dropBytes start lines.chars).takeWhile fun c => !isLineBreak c)

def extent? (lines : Lines) (start stop : Nat) : Option Extent :=
  Extent.between? (lines.position start) (lines.position stop)

end Lines

end SwiftTidy

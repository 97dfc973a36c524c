/-!
# Blank characters

Character classes are given as tables, small ones of closed code point ranges and large ones of runs.
This module holds the tests and the smallest table, the characters with the Unicode property
`White_Space`.
-/

namespace SwiftTidy.Text

/-- Whether the code point of `c` lies in one of the closed ranges. -/
def inRanges (ranges : List (Nat × Nat)) (c : Char) : Bool :=
  ranges.any fun range => range.1 ≤ c.toNat && c.toNat ≤ range.2

/-- Whether a number lies in a class that is given by the lengths of its runs: numbers outside of it
and in it by turns, from 0 on. -/
def coveredBy : List Nat → Nat → Bool
  | out :: run :: runs, n => out ≤ n && (n < out + run || coveredBy runs (n - (out + run)))
  | _, _ => false

/-- Whether the code point of `c` lies in one of the runs. -/
def inRuns (runs : List Nat) (c : Char) : Bool := coveredBy runs c.toNat

/-- The ranges of `White_Space`. -/
def blankRanges : List (Nat × Nat) :=
  [(0x09, 0x0D), (0x20, 0x20), (0x85, 0x85), (0xA0, 0xA0), (0x1680, 0x1680), (0x2000, 0x200A),
   (0x2028, 0x2029), (0x202F, 0x202F), (0x205F, 0x205F), (0x3000, 0x3000)]

/-- Whether a character is blank: `White_Space` in the sense of Unicode, line breaks included. -/
def isBlank (c : Char) : Bool := inRanges blankRanges c

/-- Whether a character ends a line: a line feed or a carriage return. -/
def isLineBreak (c : Char) : Bool := c == '\n' || c == '\r'

/-- The characters of `cs` without the blanks at their end. -/
def trimEnd (cs : List Char) : List Char := (cs.reverse.dropWhile isBlank).reverse

/-- The characters of `cs` without the blanks at either end. -/
def trim (cs : List Char) : List Char := trimEnd (cs.dropWhile isBlank)

/-- The number of bytes that `cs` takes up in UTF-8. -/
def byteLength (cs : List Char) : Nat := cs.foldr (fun c size => c.utf8Size + size) 0

end SwiftTidy.Text

import SwiftTidy.Text.Blank

/-!
# Examples with markers

The examples of a rule mark each place where a violation is reported. Before an example is checked, its
markers are taken out and noted as offsets.
-/

namespace SwiftTidy

open Text

/-- An example without its markers. -/
structure Example where
  text : List Char
  markers : List Nat
  deriving DecidableEq, Repr

namespace Example

def marker : Char := '↓'

/-- The markers of `cs`, where `cs` stands at `offset` once the markers before it are gone. -/
def markersFrom (offset : Nat) : List Char → List Nat
  | [] => []
  | c :: rest =>
    if c == marker then offset :: markersFrom offset rest
    else markersFrom (offset + c.utf8Size) rest

def ofText (text : String) : Example :=
  ⟨text.toList.filter (· != marker), markersFrom 0 text.toList⟩

end Example

end SwiftTidy

import SwiftTidy.Data.Decimal
import SwiftTidy.Text.Quoted

/-!
# Values of a document

A configuration document is made of values of a few fixed shapes. The fields of a table keep an order:
that of the document, or that of their names, as the format has it.
-/

namespace SwiftTidy.Data

/-- A number as a document gives it. -/
inductive Number where
  | int (n : Int)
  /-- A number with a fraction or an exponent, or too large to be kept whole. -/
  | real (x : Float)

/-- A value of a document. -/
inductive Value where
  | null
  | bool (b : Bool)
  | number (n : Number)
  | text (s : String)
  | list (items : List Value)
  /-- Values under names, each name once. -/
  | table (fields : List (String × Value))

namespace Value

instance : Inhabited Value := ⟨.null⟩

def int (n : Int) : Value := .number (.int n)

/-- Puts a value under a name. A name that is there already keeps its place and takes the new
value. -/
def putField {α : Type} (name : String) (value : α) : List (String × α) → List (String × α)
  | [] => [(name, value)]
  | (other, old) :: rest =>
    if other == name then (name, value) :: rest else (other, old) :: putField name value rest

def field? (name : String) : Value → Option Value
  | .table fields => fields.lookup name
  | _ => none

/-- What kind of value this is, as a complaint about it says. -/
def describe : Value → String
  | .null => "null"
  | .bool b => "boolean `" ++ toString b ++ "`"
  | .number (.int n) => "integer `" ++ toString n ++ "`"
  | .number (.real x) => "floating point `" ++ Layout.compact.render x ++ "`"
  | .text s => "string " ++ Text.quote s
  | .list _ => "sequence"
  | .table _ => "map"

end Value

end SwiftTidy.Data

import SwiftTidy.Data.Value

/-!
# Documents before they are read

A document keeps everything that its text says: fields that repeat, and numbers and texts that stand
for nothing, such as one out of range. What is passed over may hold such leaves and may be nested to
any depth; what is read may not. `Document.value?` is the reading. There are numbers that cannot even
be passed over, which is what `Document.isPassable` asks about.
-/

namespace SwiftTidy.Data

/-- A document as its text gives it. -/
inductive Document where
  | null
  | bool (b : Bool)
  /-- A number, or nothing if it is out of the range of what is read. -/
  | number (n? : Option Number)
  /-- A number that is out of every range. It cannot be passed over. -/
  | excess
  /-- A text, or nothing if an escape in it names no character. -/
  | text (s? : Option String)
  | list (items : List Document)
  /-- Documents under names, in the order of the text. -/
  | table (fields : List (Option String × Document))

instance : Inhabited Document := ⟨.null⟩

/-- A number as a value. What is no number at all, or not finite, is empty. -/
def Number.value : Number → Value
  | .int n => .number (.int n)
  | .real x => if x.isFinite then .number (.real x) else .null

mutual

/-- The value of a document whose lists and tables are nested less than `depth` deep. Of fields with
one name the first gives the place and the last the value. -/
def Document.value? (depth : Nat) : Document → Option Value
  | .null => some .null
  | .bool b => some (.bool b)
  | .number n? => n?.map Number.value
  | .excess => none
  | .text s? => s?.map .text
  | .list items => if depth ≤ 1 then none else (Document.values? (depth - 1) items).map .list
  | .table fields =>
    if depth ≤ 1 then none else (Document.fields? (depth - 1) fields []).map .table

/-- The values of several documents. -/
def Document.values? (depth : Nat) : List Document → Option (List Value)
  | [] => some []
  | item :: rest => do
    let value ← item.value? depth
    let values ← Document.values? depth rest
    return value :: values

/-- The values of the fields of a table, after the fields `before`. -/
def Document.fields? (depth : Nat) :
    List (Option String × Document) → List (String × Value) → Option (List (String × Value))
  | [], before => some before
  | (name?, item) :: rest, before => do
    let name ← name?
    let value ← item.value? depth
    Document.fields? depth rest (Value.putField name value before)

end

mutual

/-- Whether a document can be passed over: there is no number in it that is out of every range. -/
def Document.isPassable : Document → Bool
  | .excess => false
  | .list items => Document.arePassable items
  | .table fields => Document.fieldsPassable fields
  | _ => true

def Document.arePassable : List Document → Bool
  | [] => true
  | item :: rest => item.isPassable && Document.arePassable rest

def Document.fieldsPassable : List (Option String × Document) → Bool
  | [] => true
  | (_, item) :: rest => item.isPassable && Document.fieldsPassable rest

end

end SwiftTidy.Data

import SwiftTidy.Data.Document

/-!
# Tables of TOML under construction

The lines of a document add to its tables one by one: a line `[a.b]` opens a table, `[[a.b]]` opens one more
table of a list, and `a.b = 1` puts a value into a table. A table may be opened once, and a value may be put
once. Which ways of reaching a table may be mixed depends on how it came about.
-/

namespace SwiftTidy.Data.Toml

/-- How a table came about. -/
inductive Origin where
  | opened
  /-- On the way to a table that a line opens. -/
  | implied
  /-- On the way to a value that a line puts. -/
  | dotted
  deriving DecidableEq, Repr

/-- What stands under a name. -/
inductive Node where
  | value (document : Document)
  /-- A table that lines may still add to. -/
  | table (origin : Origin) (fields : List (String × Node))
  /-- A list of tables, the last of which lines may still add to. The others are given backwards. -/
  | tables (closed : List Document) (fields : List (String × Node))

instance : Inhabited Node := ⟨.value .null⟩

abbrev Fields := List (String × Node)

/-! ## Reaching a table -/

/-- Changes the table at the end of a path, and makes the tables on the way to it. A path to a value, which is
`dotted`, does not lead through a table that was opened. -/
def changeAt (dotted : Bool) (change : Origin → Fields → Option Fields) :
    List String → Origin → Fields → Option Fields
  | [], origin, fields => change origin fields
  | name :: path, _, fields =>
    match fields.lookup name with
    | none => do
      let origin := if dotted then Origin.dotted else .implied
      let inner ← changeAt dotted change path origin []
      return Value.putField name (.table origin inner) fields
    | some (.table origin inner) => do
      guard (!(dotted && origin == .opened))
      let inner ← changeAt dotted change path origin inner
      return Value.putField name (.table origin inner) fields
    | some (.tables closed inner) => do
      let inner ← changeAt dotted change path .opened inner
      return Value.putField name (.tables closed inner) fields
    | some (.value _) => none

/-- Puts a value under a name of a table that is reached by `path` from another one. -/
def put (path : List String) (name : String) (document : Document) (origin : Origin)
    (fields : Fields) : Option Fields :=
  changeAt true
    (fun origin fields =>
      if (origin == .dotted) == path.isEmpty || (fields.lookup name).isSome then none
      else some (Value.putField name (.value document) fields))
    path origin fields

/-! ## Complete tables -/

def inOrder {α : Type} (fields : List (String × α)) : List (String × α) :=
  fields.mergeSort fun a b => !(b.1 < a.1)

def tableOf (fields : List (String × Document)) : Document :=
  .table ((inOrder fields).map fun (name, document) => (some name, document))

mutual

/-- What stands under a name once all lines are read. -/
def Node.document : Node → Document
  | .value document => document
  | .table _ fields => tableOf (fieldDocuments fields)
  | .tables closed fields => .list (closed.reverse ++ [tableOf (fieldDocuments fields)])

def fieldDocuments : List (String × Node) → List (String × Document)
  | [] => []
  | (name, node) :: rest => (name, node.document) :: fieldDocuments rest

end

/-! ## Opening a table -/

/-- Opens a table. -/
def openTable (name : String) (_ : Origin) (fields : Fields) : Option Fields :=
  match fields.lookup name with
  | none => some (Value.putField name (.table .opened []) fields)
  | some (.table .implied inner) => some (Value.putField name (.table .opened inner) fields)
  | _ => none

/-- Opens one more table of a list. -/
def openListed (name : String) (_ : Origin) (fields : Fields) : Option Fields :=
  match fields.lookup name with
  | none => some (Value.putField name (.tables [] []) fields)
  | some (.tables closed inner) =>
    some (Value.putField name (.tables (tableOf (fieldDocuments inner) :: closed) []) fields)
  | _ => none

end SwiftTidy.Data.Toml

import SwiftTidy.Rule.Basic
import SwiftTidy.Syntax.Part

/-!
# Return clauses that say nothing

A function or a closure that returns nothing need not say so. This rule objects to a return clause whose type
is `Void` or `()`, and takes it out. Types that merely contain one of these are left alone, and so is the
arrow of a function type.
-/

namespace SwiftTidy.Rules

open Data

namespace VoidReturn

/-- What the rule says about itself. -/
def description : Description where
  id := "redundant_void_return"
  name := "Redundant Void Return"
  description := "Returning Void in a function declaration is redundant"
  kind := .idiomatic
  severity := .warning
  optIn := false
  nonTriggering := [
    "func foo() {}\n",
    "func foo() -> Int {}\n",
    "func foo() -> Int -> Void {}\n",
    "func foo() -> VoidResponse\n",
    "let foo: (Int) -> Void\n",
    "func foo() -> Int -> () {}\n",
    "let foo: (ConfigurationTests) -> () throws -> Void\n",
    "let foo: (ConfigurationTests) ->   () throws -> Void\n",
    "let foo: (ConfigurationTests) ->() throws -> Void\n",
    "func foo() -> ()?\n",
    "func foo() -> ()!\n",
    "func foo() -> Void?\n",
    "func foo() -> Void!\n",
    "func foo() -> Swift.Void {}\n",
    "struct A \x7b\n    subscript(key: String) \x7b\n        print(key)\n    \x7d\n\x7d\n",
    "doSomething \x7b arg in\n    print(arg)\n\x7d\n"]
  triggering := [
    "func foo()↓ -> Void {}\n",
    "protocol Foo \x7b\n  func foo()↓ -> Void\n\x7d\n",
    "func foo()↓ -> () {}\n",
    "func foo()↓ -> ( ) {}\n",
    "protocol Foo \x7b\n  func foo()↓ -> ()\n\x7d\n",
    "func foo() throws↓ -> Void {}\n",
    "func run<T>(_ value: T)↓ -> Void where T: Equatable {}\n",
    "doSomething \x7b arg↓ -> () in\n    print(arg)\n\x7d\n",
    "doSomething \x7b arg↓ -> Void in\n    print(arg)\n\x7d\n"]
  corrections := [
    ("func foo()↓ -> Void {}\n", "func foo() {}\n"),
    ("protocol Foo \x7b\n  func foo()↓ -> Void\n\x7d\n",
     "protocol Foo \x7b\n  func foo()\n\x7d\n"),
    ("protocol Foo \x7b\n  func foo()↓ -> ()\n\x7d\n",
     "protocol Foo \x7b\n  func foo()\n\x7d\n"),
    ("func foo()↓ -> () {}\n", "func foo() {}\n"),
    ("func foo()↓ -> ( ) {}\n", "func foo() {}\n"),
    ("func foo()↓ -> Void // done\n", "func foo() // done\n"),
    ("doSomething \x7b arg↓ -> Void in\n    print(arg)\n\x7d\n",
     "doSomething \x7b arg in\n    print(arg)\n\x7d\n")]

/-! ## Options -/

/-- Why a value cannot serve as the options of the rule. -/
inductive OptionsProblem where
  /-- The value is neither a table nor a list. -/
  | notATable (value : Value)
  | unknownOption (name : String)
  /-- The value of the option is no truth value. -/
  | notABoolean (value : Value)
  | tooShort
  /-- A list of values that holds more than there are options. -/
  | tooLong (length : Nat)

/-- What a reader is told. -/
def OptionsProblem.message : OptionsProblem → String
  | .notATable value => "invalid type: " ++ value.describe ++ ", expected struct Options"
  | .unknownOption name => "unknown field `" ++ name ++ "`, expected `include_closures`"
  | .notABoolean value => "invalid type: " ++ value.describe ++ ", expected a boolean"
  | .tooShort => "invalid length 0, expected struct Options with 1 element"
  | .tooLong length =>
    "invalid length " ++ toString length ++ ", expected fewer elements in array"

/-- An option that may be left empty. -/
def switch (value : Value) : Except OptionsProblem (Option Bool) :=
  match value with
  | .null => .ok none
  | .bool b => .ok (some b)
  | _ => .error (.notABoolean value)

/-- Reads the fields of a table of options in order. -/
def switchIn : Option Bool → List (String × Value) → Except OptionsProblem (Option Bool)
  | found, [] => .ok found
  | _, (name, value) :: rest =>
    if name == "include_closures" then (switch value).bind fun found => switchIn found rest
    else .error (.unknownOption name)

/-- Whether the options say something about closures. They are a table, or a list of the values of the
options in order. -/
def closuresIn (options : Value) : Except OptionsProblem (Option Bool) :=
  match options with
  | .table fields => switchIn none fields
  | .list [] => .error .tooShort
  | .list [value] => switch value
  | .list (value :: rest) =>
    (switch value).bind fun _ => .error (.tooLong (rest.length + 1))
  | _ => .error (.notATable options)

/-! ## Sites -/

/-- Whether the node at a path is a return clause that the rule looks at, and if so, whether it belongs to a
closure. -/
def inClosure? (closures : Bool) (tree : Tree) (path : Path) : Option Bool :=
  match tree.ownerKind? path with
  | some .functionSignature => some false
  | some .closureSignature => if closures then some true else none
  | _ => none

/-- Decides about a node. A violation is reported right after the token before the clause. -/
def find (closures : Bool) (tree : Tree) (path : Path) : Except Error (Option Site) :=
  match tree.part? path, inClosure? closures tree path with
  | some clause, some inClosure =>
    if clause.tree.isNode && clause.kind == .returnClause && clause.type?.any Part.isVoid then
      match clause.tree.firstToken? with
      | none => .error (.rule description.id "empty return clause")
      | some _ =>
        let anchor :=
          match (tree.around path).significantBefore? with
          | some previous => tree.startAt previous.path + previous.token.width
          | none => tree.startAt path
        let message? := if inClosure then some "Returning Void in a closure is redundant" else none
        .ok (some ⟨path, anchor, message?⟩)
    else .ok none
  | _, _ => .ok none

def check (closures : Bool) : Check where
  find := find closures
  fix := fun _ site => .ok (some (.remove site.path))

/-- How the rule works with given options. What they leave open stays as it is. -/
def configure (closures : Bool) (options : Value) : Except Error (Option Check) :=
  match options with
  | .null => .ok none
  | _ =>
    match closuresIn options with
    | .ok closures? => .ok (some (check (closures?.getD closures)))
    | .error problem => .error (.rule description.id problem.message)

end VoidReturn

def voidReturn (closures : Bool) : Rule where
  description := VoidReturn.description
  check := VoidReturn.check closures
  configure := VoidReturn.configure closures

end SwiftTidy.Rules

import SwiftTidy.Rule.Basic
import SwiftTidy.Syntax.Part

/-!
# Expectations with an operator

Tests with Nimble say `expect(x).to(equal(y))` for what `expect(x) == y` says as well. This rule objects to
such a chain where its matcher has an operator, and puts the comparison in its place. Matchers without an
argument stand for a literal: `expect(x).to(beNil())` becomes `expect(x) == nil`.
-/

namespace SwiftTidy.Rules

namespace Expectation

/-- What the rule says about itself. -/
def description : Description where
  id := "nimble_operator"
  name := "Nimble Operator"
  description := "Prefer Nimble operator overloads over free matcher functions"
  kind := .idiomatic
  severity := .warning
  optIn := true
  nonTriggering := [
    "expect(seagull.squawk) != \"Hi!\"\n",
    "expect(\"Hi!\") == \"Hi!\"\n",
    "expect(10) > 2\n",
    "expect(10) >= 10\n",
    "expect(10) < 11\n",
    "expect(10) <= 10\n",
    "expect(x) === x\n",
    "expect(10) == 10\n",
    "expect(success) == true\n",
    "expect(value) == nil\n",
    "expect(value) != nil\n",
    "expect(object.asyncFunction()).toEventually(equal(1))\n",
    "expect(actual).to(haveCount(expected))\n",
    "foo.method \x7b\n    expect(value).to(equal(expectedValue), description: \"Failed\")\n" ++
      "    return Bar(value: ())\n\x7d\n",
    "expect(x).to(beGreaterThan(8), description: \"d\")\n",
    "expect(10).toNot(beGreaterThan(8))\n",
    "expect(10).notTo(beLessThanOrEqualTo(8))\n",
    "expect { try compute() }.to(equal(1))\n",
    "expect(x).to(equal(1)) \x7b\n    print(\"done\")\n\x7d\n",
    "expect(a, b).to(equal(1))\n",
    "expect(x).to(equal(1, 2))\n",
    "expect(x).to(beNil(1))\n",
    "expect(x).to(equal(to: 1))\n",
    "expect(x).to(equal(1)).foo\n",
    "expect(x).to(equal(1))()\n",
    "expect(x).to(beNil())!\n",
    "let failed = !expect(x).to(beTrue())\n"]
  triggering := [
    "↓expect(seagull.squawk).toNot(equal(\"Hi\"))\n",
    "↓expect(12).toNot(equal(10))\n",
    "↓expect(10).to(equal(10))\n",
    "↓expect(10).to(beGreaterThan(8))\n",
    "↓expect(10).to(beGreaterThanOrEqualTo(10))\n",
    "↓expect(10).to(beLessThan(11))\n",
    "↓expect(10).to(beLessThanOrEqualTo(10))\n",
    "↓expect(x).to(beIdenticalTo(x))\n",
    "↓expect(x).toNot(beIdenticalTo(y))\n",
    "↓expect(success).to(beTrue())\n",
    "↓expect(success).to(beFalse())\n",
    "↓expect(value).to(beNil())\n",
    "↓expect(value).toNot(beNil())\n",
    "↓expect(value).notTo(beNil())\n",
    "expect(10) > 2\n↓expect(10).to(beGreaterThan(2))\n",
    "func testSum() \x7b\n    ↓expect(sum(1, 2)).to(equal(3))\n\x7d\n"]
  corrections := [
    ("↓expect(seagull.squawk).toNot(equal(\"Hi\"))\n", "expect(seagull.squawk) != \"Hi\"\n"),
    ("↓expect(\"Hi!\").to(equal(\"Hi!\"))\n", "expect(\"Hi!\") == \"Hi!\"\n"),
    ("↓expect(12).toNot(equal(10))\n", "expect(12) != 10\n"),
    ("↓expect(value1).to(equal(value2))\n", "expect(value1) == value2\n"),
    ("↓expect(10).to(beGreaterThan(8))\n", "expect(10) > 8\n"),
    ("↓expect(10).to(beGreaterThanOrEqualTo(10))\n", "expect(10) >= 10\n"),
    ("↓expect(10).to(beLessThan(11))\n", "expect(10) < 11\n"),
    ("↓expect(10).to(beLessThanOrEqualTo(10))\n", "expect(10) <= 10\n"),
    ("↓expect(x).to(beIdenticalTo(x))\n", "expect(x) === x\n"),
    ("↓expect(x).notTo(beIdenticalTo(y))\n", "expect(x) !== y\n"),
    ("↓expect(success).to(beTrue())\n", "expect(success) == true\n"),
    ("↓expect(success).to(beFalse())\n", "expect(success) == false\n"),
    ("↓expect(success).toNot(beFalse())\n", "expect(success) != false\n"),
    ("↓expect(value).to(beNil())\n", "expect(value) == nil\n"),
    ("↓expect(value).notTo(beNil())\n", "expect(value) != nil\n"),
    ("↓expect(10).to(beGreaterThan(8)) // sanity\n", "expect(10) > 8 // sanity\n"),
    ("↓expect(x).to(equal(a ?? b))\n", "expect(x) == (a ?? b)\n"),
    ("↓expect(x).to(equal(y as Int))\n", "expect(x) == (y as Int)\n"),
    ("↓expect(x).to(equal(try foo()))\n", "expect(x) == (try foo())\n"),
    ("↓expect(x).toNot(equal(await load()))\n", "expect(x) != (await load())\n"),
    ("try ↓expect(x).to(equal(1))\n", "try expect(x) == 1\n"),
    ("func testSum() \x7b\n    ↓expect(sum(1, 2)).to(equal(3))\n\x7d\n",
     "func testSum() \x7b\n    expect(sum(1, 2)) == 3\n\x7d\n")]

/-! ## Matchers -/

/-- A matcher function that has an operator. -/
structure Matcher where
  name : String
  operator : String
  /-- The operator that says the opposite, if there is one. -/
  negated? : Option String
  /-- The literal that a matcher without an argument compares with. -/
  literal? : Option Token
  deriving DecidableEq, Repr

namespace Matcher

/-- All matchers that have an operator. -/
def all : List Matcher := [
  ⟨"equal", "==", some "!=", none⟩,
  ⟨"beIdenticalTo", "===", some "!==", none⟩,
  ⟨"beGreaterThan", ">", none, none⟩,
  ⟨"beGreaterThanOrEqualTo", ">=", none, none⟩,
  ⟨"beLessThan", "<", none, none⟩,
  ⟨"beLessThanOrEqualTo", "<=", none, none⟩,
  ⟨"beTrue", "==", some "!=", some ⟨.trueKw, "true"⟩⟩,
  ⟨"beFalse", "==", some "!=", some ⟨.falseKw, "false"⟩⟩,
  ⟨"beNil", "==", some "!=", some ⟨.nilKw, "nil"⟩⟩]

def named? (name : String) : Option Matcher := all.find? fun matcher => matcher.name == name

def arity (matcher : Matcher) : Nat := if matcher.literal?.isSome then 0 else 1

def operator? (matcher : Matcher) (negated : Bool) : Option String :=
  if negated then matcher.negated? else some matcher.operator

end Matcher

/-! ## Sites -/

/-- A chain that a comparison can take the place of. -/
structure Chain where
  subject : Tree
  matcher : Matcher
  /-- The operator that takes the place of the matcher. -/
  operator : String
  argument? : Option Tree

/-- Whether the name of a member rules a matcher out. Members of other names ask for nothing. -/
def ruledOut? (name : String) : Option Bool :=
  if name == "to" then some false
  else if name == "toNot" || name == "notTo" then some true
  else none

def bindsTightly (kind : Kind) : Bool :=
  match kind with
  | .memberExpr | .postfixExpr | .callExpr | .prefixExpr | .binaryExpr => true
  | _ => false

def call? (part : Part) : Option Part :=
  if part.tree.isNode && part.kind == .callExpr then some part else none

/-- The chain at a path. -/
def chain? (tree : Tree) (path : Path) : Option Chain := do
  let call ← (← tree.part? path) |> call?
  guard (!call.isSubscript && call.trailingClosure?.isNone)
  guard (!(tree.ownerKind? path).any bindsTightly)
  let member ← call.expression?
  guard (member.kind == .memberExpr)
  let negated ← ruledOut? (← member.name?)
  let subject ← (← member.expression?) |> call?
  guard ((← subject.calledName?) == "expect")
  guard (subject.trailingClosure?.isNone && subject.arguments.length == 1)
  let [argument] := call.arguments | none
  guard argument.label?.isNone
  let matching ← (← argument.expression?) |> call?
  guard matching.trailingClosure?.isNone
  let matcher ← Matcher.named? (← matching.calledName?)
  let operator ← matcher.operator? negated
  let arguments := matching.arguments
  guard (arguments.length == matcher.arity && arguments.all fun part => part.label?.isNone)
  match arguments.head? with
  | none => return ⟨subject.tree, matcher, operator, none⟩
  | some first => return ⟨subject.tree, matcher, operator, some (← first.expression?).tree⟩

/-- Decides about a node. -/
def find (tree : Tree) (path : Path) : Except Error (Option Site) :=
  .ok ((chain? tree path).map fun chain =>
    ⟨path, tree.startAt path,
      some ("Prefer the `" ++ chain.operator ++ "` operator over `" ++ chain.matcher.name ++ "`")⟩)

/-! ## Fixing -/

def needsParentheses (operand : Tree) : Bool :=
  match operand.kind with
  | .binaryExpr | .ternaryExpr | .tryExpr => true
  | _ => false

/-- What stands to the right of the operator. -/
def Chain.right? (chain : Chain) : Option Tree :=
  match chain.matcher.literal?, chain.argument? with
  | some literal, _ => some (.node .literalExpr [.leaf literal])
  | none, some argument =>
    if needsParentheses argument then
      some (.node .tupleExpr [.leaf ⟨.lparen, "("⟩, argument, .leaf ⟨.rparen, ")"⟩])
    else some argument
  | none, none => none

/-- The comparison with the given right side. -/
def Chain.comparison (chain : Chain) (right : Tree) : Tree :=
  let space := Tree.leaf ⟨.whitespace, " "⟩
  .node .binaryExpr
    (chain.subject :: space :: (tokensOf chain.operator).map Tree.leaf ++ [space, right])

/-- The change for a site. -/
def fix (tree : Tree) (site : Site) : Except Error (Option Change) :=
  match chain? tree site.path with
  | none => .error (.rule description.id "site no longer matches")
  | some chain =>
    match chain.right? with
    | none => .error (.rule description.id "missing predicate argument")
    | some right => .ok (some (.replace site.path (chain.comparison right)))

end Expectation

/-- The rule against expectations that have an operator. -/
def expectation : Rule where
  description := Expectation.description
  check := ⟨Expectation.find, Expectation.fix⟩
  configure := Rule.takesNoOptions Expectation.description.id

end SwiftTidy.Rules

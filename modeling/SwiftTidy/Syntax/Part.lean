import SwiftTidy.Syntax.Neighbour

/-!
# Parts of a tree

A part is a subtree together with its path from the root. The functions here give the parts of a node by
name: the name and the body of a function, the arguments of a call, the type of a return clause. They look
at direct children only and answer with nothing where a file is incomplete.
-/

namespace SwiftTidy

/-- A subtree with its place in the whole. -/
structure Part where
  path : Path
  tree : Tree

namespace Tree

def part? (tree : Tree) (path : Path) : Option Part := (tree.sub? path).map (Part.mk path)

def ownerKind? (tree : Tree) (path : Path) : Option Kind :=
  if path.isEmpty then none else (tree.sub? path.dropLast).map Tree.kind

def nodeParts (tree : Tree) : List Part := tree.nodePaths.filterMap tree.part?

end Tree

/-- The forms of a type that are told apart. -/
inductive TypeForm where
  /-- A name, perhaps with generic arguments. -/
  | simple
  /-- Types in parentheses, perhaps none. -/
  | tuple
  /-- A type followed by a question mark. -/
  | optional
  | function
  | other
  deriving DecidableEq, Repr

/-- The forms of an expression that are told apart. -/
inductive ExprForm where
  | ident
  | literal
  /-- A member of another expression, or of an implied one. -/
  | member
  | call
  | closure
  /-- Two operands with an operator between them. -/
  | binary
  | other
  deriving DecidableEq, Repr

namespace TypeForm

/-- The form of the types of a kind. -/
def ofKind? (kind : Kind) : Option TypeForm :=
  match kind with
  | .simpleType => some .simple
  | .tupleType => some .tuple
  | .optionalType => some .optional
  | .functionType => some .function
  | _ => if kind.isType then some .other else none

end TypeForm

namespace ExprForm

/-- The form of the expressions of a kind. -/
def ofKind? (kind : Kind) : Option ExprForm :=
  match kind with
  | .identExpr => some .ident
  | .literalExpr => some .literal
  | .memberExpr => some .member
  | .callExpr => some .call
  | .closureExpr => some .closure
  | .binaryExpr => some .binary
  | _ => if kind.isExpression then some .other else none

end ExprForm

namespace Part

/-! ## Children -/

def kind (part : Part) : Kind := part.tree.kind

def children (part : Part) : List Part :=
  part.tree.children.mapIdx fun i child => ⟨part.path ++ [i], child⟩

def nodes (part : Part) : List Part := part.children.filter fun child => child.tree.isNode

def node? (part : Part) (kind : Kind) : Option Part :=
  part.nodes.find? fun child => child.kind == kind

def leaf? (part : Part) (kind : Kind) : Option Part :=
  part.children.find? fun child => !child.tree.isNode && child.kind == kind

def types (part : Part) : List Part := part.nodes.filter fun child => child.kind.isType

def expressions (part : Part) : List Part := part.nodes.filter fun child => child.kind.isExpression

/-- The first name among the child leaves. A keyword may serve as a name. -/
def name? (part : Part) : Option String :=
  (part.tree.childTokens.find? fun token => token.kind == .ident || token.kind.isKeyword).map
    Token.text

/-! ## Functions -/

/-- The name of a function declaration. -/
def functionName? (part : Part) : Option String :=
  let rest := (part.tree.childTokens.dropWhile fun token => token.kind != .funcKw).drop 1
  (rest.find? fun token => !token.isTrivia).map Token.text

def signature? (part : Part) : Option Part := part.node? .functionSignature

def body? (part : Part) : Option Part := part.node? .codeBlock

def parameters? (part : Part) : Option Part := part.node? .parameterClause

def returnClause? (part : Part) : Option Part := part.node? .returnClause

def isThrowing (part : Part) : Bool :=
  (part.leaf? .throwsKw).isSome || (part.leaf? .rethrowsKw).isSome

def arrow? (part : Part) : Option Part := part.leaf? .arrow

/-! ## Types -/

def typeForm? (part : Part) : Option TypeForm :=
  if part.tree.isNode then TypeForm.ofKind? part.kind else none

def type? (part : Part) : Option Part := part.types.head?

def result? (part : Part) : Option Part := part.types.getLast?

def typeName? (part : Part) : Option String :=
  (part.tree.childTokens.find? fun token => token.kind == .ident).map Token.text

def genericArguments? (part : Part) : Option Part := part.node? .genericArgs

def tupleElements (part : Part) : List Part :=
  part.nodes.filter fun child => child.kind == .tupleTypeElement

/-- Whether a type is the empty one: `Void` without generic arguments, or a tuple of no elements. -/
def isVoid (part : Part) : Bool :=
  match part.typeForm? with
  | some .simple => part.typeName? == some "Void" && part.genericArguments?.isNone
  | some .tuple => part.tupleElements.isEmpty
  | _ => false

/-! ## Expressions -/

def exprForm? (part : Part) : Option ExprForm :=
  if part.tree.isNode then ExprForm.ofKind? part.kind else none

/-- The first expression within a part: what is called, the base of a member, the value of an argument,
or the left operand of an operator. -/
def expression? (part : Part) : Option Part := part.expressions.head?

def rightOperand? (part : Part) : Option Part := part.expressions[1]?

def operator (part : Part) : String :=
  Token.textOf (part.tree.childTokens.filter fun token =>
    token.kind.isOperatorPart || token.kind == .ident)

def calledName? (part : Part) : Option String :=
  part.expression?.bind fun callee => if callee.kind == .identExpr then callee.name? else none

def argumentList? (part : Part) : Option Part := part.node? .argumentList

def listedArguments (part : Part) : List Part :=
  part.nodes.filter fun child => child.kind == .argument

/-- The arguments of a call. A trailing closure is none of them. -/
def arguments (part : Part) : List Part :=
  match part.argumentList? with
  | some list => list.listedArguments
  | none => []

/-- The closure that follows a call. What is called may be a closure too and does not count. -/
def trailingClosure? (part : Part) : Option Part :=
  (part.nodes.drop 1).find? fun child => child.kind == .closureExpr

/-- Whether a call is written with brackets. -/
def isSubscript (part : Part) : Bool :=
  match part.argumentList?.bind fun list => list.tree.firstToken? with
  | some token => token.kind == .lbracket
  | none => false

def label? (part : Part) : Option String :=
  if (part.leaf? .colon).isSome then part.name? else none

def closureSignature? (part : Part) : Option Part := part.node? .closureSignature

end Part

end SwiftTidy

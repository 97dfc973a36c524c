/-!
# Kinds of syntax

One closed list of kinds covers trivia, the other tokens, and the nodes of a syntax tree. The order of
the constructors is the numbering of the kinds.
-/

namespace SwiftTidy

/-- What a token or a node of a syntax tree is. -/
inductive Kind where
  -- Trivia
  | whitespace | newline | lineComment | blockComment | conditionalMarker
  -- Names and literals
  | ident | numberLiteral | stringLiteral | attributeName
  -- Keywords
  | funcKw | initKw | subscriptKw | protocolKw | structKw | classKw | enumKw | extensionKw | varKw
  | letKw | importKw | typealiasKw | caseKw | defaultKw | returnKw | ifKw | guardKw | elseKw
  | whileKw | forKw | switchKw | inKw | throwsKw | rethrowsKw | asyncKw | tryKw | awaitKw | trueKw
  | falseKw | nilKw
  -- Punctuation and operators
  | lparen | rparen | lbrace | rbrace | lbracket | rbracket | langle | rangle | comma | colon
  | semicolon | dot | arrow | question | bang | equals | operator | unknown
  -- Declarations
  | sourceFile | importDecl | typealiasDecl | functionDecl | initializerDecl | subscriptDecl
  | typeDecl | variableDecl | enumCaseDecl
  -- Parts of declarations
  | modifiers | attributeNode | genericParams | inheritanceClause | functionSignature
  | parameterClause | parameter | returnClause | typeClause | initializer | codeBlock
  -- Statements
  | returnStmt | ifStmt | guardStmt | whileStmt | forStmt | switchStmt | switchCase | elseClause
  -- Types
  | simpleType | genericArgs | memberType | tupleType | tupleTypeElement | optionalType
  | implicitlyUnwrappedType | functionType | arrayType | dictionaryType | attributedType
  -- Expressions
  | identExpr | literalExpr | tupleExpr | arrayExpr | memberExpr | callExpr | argumentList
  | argument | closureExpr | closureSignature | closureParams | prefixExpr | postfixExpr
  | binaryExpr | ternaryExpr | tryExpr
  -- Recovery
  | error
  deriving DecidableEq, Repr, Inhabited

namespace Kind

/-- Every kind, in the order of the numbering. -/
def all : List Kind :=
  [.whitespace, .newline, .lineComment, .blockComment, .conditionalMarker, .ident, .numberLiteral,
   .stringLiteral, .attributeName, .funcKw, .initKw, .subscriptKw, .protocolKw, .structKw, .classKw,
   .enumKw, .extensionKw, .varKw, .letKw, .importKw, .typealiasKw, .caseKw, .defaultKw, .returnKw,
   .ifKw, .guardKw, .elseKw, .whileKw, .forKw, .switchKw, .inKw, .throwsKw, .rethrowsKw, .asyncKw,
   .tryKw, .awaitKw, .trueKw, .falseKw, .nilKw, .lparen, .rparen, .lbrace, .rbrace, .lbracket,
   .rbracket, .langle, .rangle, .comma, .colon, .semicolon, .dot, .arrow, .question, .bang,
   .equals, .operator, .unknown, .sourceFile, .importDecl, .typealiasDecl, .functionDecl,
   .initializerDecl, .subscriptDecl, .typeDecl, .variableDecl, .enumCaseDecl, .modifiers,
   .attributeNode, .genericParams, .inheritanceClause, .functionSignature, .parameterClause,
   .parameter, .returnClause, .typeClause, .initializer, .codeBlock, .returnStmt, .ifStmt,
   .guardStmt, .whileStmt, .forStmt, .switchStmt, .switchCase, .elseClause, .simpleType,
   .genericArgs, .memberType, .tupleType, .tupleTypeElement, .optionalType,
   .implicitlyUnwrappedType, .functionType, .arrayType, .dictionaryType, .attributedType,
   .identExpr, .literalExpr, .tupleExpr, .arrayExpr, .memberExpr, .callExpr, .argumentList,
   .argument, .closureExpr, .closureSignature, .closureParams, .prefixExpr, .postfixExpr,
   .binaryExpr, .ternaryExpr, .tryExpr, .error]

def number (kind : Kind) : Nat := kind.ctorIdx

def ofNumber? (number : Nat) : Option Kind := all[number]?

/-- The name under which a kind is listed. -/
def name : Kind → String
  | .whitespace => "Whitespace"
  | .newline => "Newline"
  | .lineComment => "LineComment"
  | .blockComment => "BlockComment"
  | .conditionalMarker => "ConditionalMarker"
  | .ident => "Ident"
  | .numberLiteral => "NumberLiteral"
  | .stringLiteral => "StringLiteral"
  | .attributeName => "Attribute"
  | .funcKw => "FuncKw"
  | .initKw => "InitKw"
  | .subscriptKw => "SubscriptKw"
  | .protocolKw => "ProtocolKw"
  | .structKw => "StructKw"
  | .classKw => "ClassKw"
  | .enumKw => "EnumKw"
  | .extensionKw => "ExtensionKw"
  | .varKw => "VarKw"
  | .letKw => "LetKw"
  | .importKw => "ImportKw"
  | .typealiasKw => "TypealiasKw"
  | .caseKw => "CaseKw"
  | .defaultKw => "DefaultKw"
  | .returnKw => "ReturnKw"
  | .ifKw => "IfKw"
  | .guardKw => "GuardKw"
  | .elseKw => "ElseKw"
  | .whileKw => "WhileKw"
  | .forKw => "ForKw"
  | .switchKw => "SwitchKw"
  | .inKw => "InKw"
  | .throwsKw => "ThrowsKw"
  | .rethrowsKw => "RethrowsKw"
  | .asyncKw => "AsyncKw"
  | .tryKw => "TryKw"
  | .awaitKw => "AwaitKw"
  | .trueKw => "TrueKw"
  | .falseKw => "FalseKw"
  | .nilKw => "NilKw"
  | .lparen => "LParen"
  | .rparen => "RParen"
  | .lbrace => "LBrace"
  | .rbrace => "RBrace"
  | .lbracket => "LBracket"
  | .rbracket => "RBracket"
  | .langle => "LAngle"
  | .rangle => "RAngle"
  | .comma => "Comma"
  | .colon => "Colon"
  | .semicolon => "Semicolon"
  | .dot => "Dot"
  | .arrow => "Arrow"
  | .question => "Question"
  | .bang => "Bang"
  | .equals => "Equals"
  | .operator => "Operator"
  | .unknown => "Unknown"
  | .sourceFile => "SourceFile"
  | .importDecl => "ImportDecl"
  | .typealiasDecl => "TypealiasDecl"
  | .functionDecl => "FunctionDecl"
  | .initializerDecl => "InitializerDecl"
  | .subscriptDecl => "SubscriptDecl"
  | .typeDecl => "TypeDecl"
  | .variableDecl => "VariableDecl"
  | .enumCaseDecl => "EnumCaseDecl"
  | .modifiers => "Modifiers"
  | .attributeNode => "AttributeNode"
  | .genericParams => "GenericParams"
  | .inheritanceClause => "InheritanceClause"
  | .functionSignature => "FunctionSignature"
  | .parameterClause => "ParameterClause"
  | .parameter => "Parameter"
  | .returnClause => "ReturnClause"
  | .typeClause => "TypeAnnotation"
  | .initializer => "Initializer"
  | .codeBlock => "CodeBlock"
  | .returnStmt => "ReturnStmt"
  | .ifStmt => "IfStmt"
  | .guardStmt => "GuardStmt"
  | .whileStmt => "WhileStmt"
  | .forStmt => "ForStmt"
  | .switchStmt => "SwitchStmt"
  | .switchCase => "SwitchCase"
  | .elseClause => "ElseClause"
  | .simpleType => "SimpleType"
  | .genericArgs => "GenericArgs"
  | .memberType => "MemberType"
  | .tupleType => "TupleType"
  | .tupleTypeElement => "TupleTypeElement"
  | .optionalType => "OptionalType"
  | .implicitlyUnwrappedType => "ImplicitlyUnwrappedType"
  | .functionType => "FunctionType"
  | .arrayType => "ArrayType"
  | .dictionaryType => "DictionaryType"
  | .attributedType => "AttributedType"
  | .identExpr => "IdentExpr"
  | .literalExpr => "LiteralExpr"
  | .tupleExpr => "TupleExpr"
  | .arrayExpr => "ArrayExpr"
  | .memberExpr => "MemberExpr"
  | .callExpr => "CallExpr"
  | .argumentList => "ArgumentList"
  | .argument => "Argument"
  | .closureExpr => "ClosureExpr"
  | .closureSignature => "ClosureSignature"
  | .closureParams => "ClosureParams"
  | .prefixExpr => "PrefixExpr"
  | .postfixExpr => "PostfixExpr"
  | .binaryExpr => "BinaryExpr"
  | .ternaryExpr => "TernaryExpr"
  | .tryExpr => "TryExpr"
  | .error => "Error"

def ofName? (name : String) : Option Kind := all.find? fun kind => kind.name == name

/-! ## Classes -/

/-- Trivia: what the grammar passes over. -/
def isTrivia : Kind → Bool
  | .whitespace | .newline | .lineComment | .blockComment | .conditionalMarker => true
  | _ => false

def isComment : Kind → Bool
  | .lineComment | .blockComment => true
  | _ => false

def isKeyword (kind : Kind) : Bool :=
  Kind.number .funcKw ≤ kind.number && kind.number ≤ Kind.number .nilKw

/-- Keywords that introduce a declaration. -/
def isDeclarationKeyword : Kind → Bool
  | .funcKw | .initKw | .subscriptKw | .protocolKw | .structKw | .classKw | .enumKw | .extensionKw
  | .varKw | .letKw | .importKw | .typealiasKw | .caseKw => true
  | _ => false

def isOperatorPart : Kind → Bool
  | .operator | .langle | .rangle | .equals | .bang | .question => true
  | _ => false

/-- Kinds that may serve as a name: an identifier, or a keyword used as one. -/
def isName (kind : Kind) : Bool := kind == .ident || kind.isKeyword

/-- Kinds of nodes that are types. -/
def isType : Kind → Bool
  | .simpleType | .tupleType | .optionalType | .functionType | .memberType
  | .implicitlyUnwrappedType | .arrayType | .dictionaryType | .attributedType => true
  | _ => false

/-- Kinds of nodes that are expressions. -/
def isExpression : Kind → Bool
  | .identExpr | .literalExpr | .memberExpr | .callExpr | .closureExpr | .binaryExpr | .tupleExpr
  | .arrayExpr | .prefixExpr | .postfixExpr | .ternaryExpr | .tryExpr => true
  | _ => false

/-- The keyword that a word spells, if it spells one. -/
def ofKeyword? : String → Option Kind
  | "func" => some .funcKw
  | "init" => some .initKw
  | "subscript" => some .subscriptKw
  | "protocol" => some .protocolKw
  | "struct" => some .structKw
  | "class" => some .classKw
  | "enum" => some .enumKw
  | "extension" => some .extensionKw
  | "var" => some .varKw
  | "let" => some .letKw
  | "import" => some .importKw
  | "typealias" => some .typealiasKw
  | "case" => some .caseKw
  | "default" => some .defaultKw
  | "return" => some .returnKw
  | "if" => some .ifKw
  | "guard" => some .guardKw
  | "else" => some .elseKw
  | "while" => some .whileKw
  | "for" => some .forKw
  | "switch" => some .switchKw
  | "in" => some .inKw
  | "throws" => some .throwsKw
  | "rethrows" => some .rethrowsKw
  | "async" => some .asyncKw
  | "try" => some .tryKw
  | "await" => some .awaitKw
  | "true" => some .trueKw
  | "false" => some .falseKw
  | "nil" => some .nilKw
  | _ => none

end Kind

end SwiftTidy

import SwiftTidy.Grammar.Phrase

/-!
# A grammar of Swift

The procedures of the grammar, one for each symbol. They accept every row of tokens: a construct ends
where its next part is missing, and a token that begins nothing goes into an `error` node.

A symbol that stands for an optional construct looks for it itself and does nothing where it is
missing. A symbol that stands for a repetition calls itself at the end.
-/

namespace SwiftTidy.Grammar

/-- Where a row of statements ends. -/
inductive Ending where
  | fileEnd
  | brace
  /-- Before a closing brace or the label of a case. -/
  | caseLabel

/-- The symbols of the grammar. -/
inductive Symbol where
  -- Recovery and brackets
  | error | group | inGroup (opening closing : Kind) (depth : Nat)
  -- Statements
  | statements (ending : Ending) | statement | codeBlock | returnStmt | conditions
  | conditionPattern | ifStmt | guardStmt | whileStmt | forStmt | forPattern | switchStmt
  | switchBody | switchCase | switchLabel
  -- Declarations
  | declaration | modifiers | modifierList | attributeNode | attributeNodes | function | operatorName
  | initializer | subscript | typeDecl | dottedName | inheritedTypes | variable | bindings
  | importDecl | importPath | typealias | enumCase | enumElements | genericParams
  | genericParamList | signature | effects | returnClause | parameterClause | parameters
  | parameter | whereClause | whereWords
  -- Types
  | type | typeSuffixes | simpleType | genericArgs | genericArgList | tupleType | tupleElements
  | tupleElement | collectionType
  -- Expressions
  | expr (inCondition : Bool) | exprSuffixes (inCondition : Bool) | operatorRest
  | unary (inCondition : Bool) | postfixed (inCondition : Bool) | suffixes (inCondition : Bool)
  | primary | argumentList (closing : Kind) | arguments (closing : Kind)
  | argumentItems (closing : Kind) | arrayExpr | arrayItems | closure | closureSignature
  | closureNames

namespace Test

def next (kind : Kind) : Test := .sees 0 (· == kind)

def nextAny (kinds : List Kind) : Test := .sees 0 kinds.contains

def second (kind : Kind) : Test := .sees 1 (· == kind)

def someToken : Test := .sees 0 fun _ => true

def never : Test := .sees 0 fun _ => false

def nextName : Test := .sees 0 Kind.isName

def nextWord (words : List String) : Test := .both (next .ident) (.spelled words)

def joined (kind : Kind) : Test := .both (next kind) (.fails .spaced)

def sameLine (kind : Kind) : Test := .both (next kind) (.fails .broken)

/-! ## Tests of the language -/

/-- Words that modify the declaration they stand before. -/
def modifierWords : List String :=
  ["public", "private", "fileprivate", "internal", "open", "static", "final", "override",
   "mutating", "nonmutating", "lazy", "weak", "unowned", "convenience", "required", "dynamic",
   "optional", "indirect", "nonisolated"]

def typeSpecifiers : List String := ["inout", "some", "any", "borrowing", "consuming"]

/-- Whether tokens open a declaration, the first `skip` of them left out: an attribute does, and so
does a keyword of a declaration after any number of modifiers. A modifier with parentheses, such as
`private(set)`, counts as four tokens. -/
def opensDeclaration (skip : Nat) : List Token → Bool
  | [] => false
  | token :: rest =>
    match skip with
    | skip + 1 => opensDeclaration skip rest
    | 0 =>
      let following := rest.head?.map Token.kind
      if token.kind == .attributeName then true
      else if token.kind == .ident && modifierWords.contains token.text then
        opensDeclaration (if following == some .lparen then 3 else 0) rest
      else if token.kind == .classKw && following.any Kind.isDeclarationKeyword then
        opensDeclaration 0 rest
      else token.kind.isDeclarationKeyword

/-- Whether the tokens after an opening brace are the head of a closure: `in` comes, inside no
bracket, before anything that can only stand in a statement. -/
def opensSignature (depth : Nat) : List Token → Bool
  | [] => false
  | token :: rest =>
    match token.kind with
    | .inKw => depth == 0 || opensSignature depth rest
    | .lparen | .lbracket | .langle => opensSignature (depth + 1) rest
    | .rparen | .rbracket | .rangle =>
      match depth with
      | 0 => false
      | depth + 1 => opensSignature depth rest
    | .ident | .comma | .colon | .arrow | .question | .bang | .dot | .attributeName | .throwsKw
    | .asyncKw => opensSignature depth rest
    | .lbrace | .rbrace => false
    | _ => depth > 0 && opensSignature depth rest

def declaration : Test := .scans (opensDeclaration 0)

def closureHead : Test := .scans (opensSignature 0)

/-- `class` modifies the declaration after it. -/
def classModifier : Test := .both (next .classKw) (.sees 1 Kind.isDeclarationKeyword)

def typeStart : Test := nextAny [.ident, .lparen, .lbracket, .attributeName]

def primaryKinds : List Kind :=
  [.ident, .initKw, .numberLiteral, .stringLiteral, .trueKw, .falseKw, .nilKw, .lparen, .lbracket,
   .lbrace, .dot]

def operandKinds : List Kind := [.operator, .bang, .tryKw, .awaitKw] ++ primaryKinds

/-- An expression begins. A point begins one only if a name follows. -/
def exprStart : Test :=
  .both (nextAny operandKinds) (.either (.fails (next .dot)) (.sees 1 Kind.isName))

def binaryOperator : Test :=
  .either (nextAny [.operator, .langle, .rangle, .equals])
    (.both (nextWord ["as", "is"]) (.fails .broken))

def variadic : Test := .both (next .operator) (.spelled ["..."])

/-- `?` or `!` follows the token before it directly. -/
def unwrapMark : Test := .both (nextAny [.question, .bang]) (.fails .spaced)

def label : Test := .both nextName (second .colon)

def doubleLabel : Test := .both nextName (.both (second .ident) (.sees 2 (· == .colon)))

end Test

open Phrase Test

def accept (kind : Kind) : Phrase Symbol := opt (next kind) take

def acceptName : Phrase Symbol := opt nextName take

def joinedGroup : Phrase Symbol := opt (joined .lparen) (call .group)

/-- The tokens before which a row of statements ends. -/
def Ending.stops : Ending → Kind → Bool
  | .fileEnd, _ => false
  | .brace, kind => kind == .rbrace
  | .caseLabel, kind => kind == .caseKw || kind == .defaultKw || kind == .rbrace

/-! ## The procedures -/

/-- Tokens up to one of the given kinds, or to the end. Groups in brackets are taken whole. -/
def upTo (kinds : List Kind) (again : Symbol) : Phrase Symbol :=
  opt (.sees 0 fun kind => !kinds.contains kind) <| inOrder
    [choose (nextAny [.lparen, .lbracket]) (call .group) take, call again]

def callOf (body : Phrase Symbol) : Phrase Symbol := wrap .callExpr body

/-- Statements. -/
def statementPhrase : Phrase Symbol :=
  firstOf
    [(declaration, call .declaration), (next .semicolon, take), (next .returnKw, call .returnStmt),
     (next .ifKw, call .ifStmt), (next .guardKw, call .guardStmt), (next .whileKw, call .whileStmt),
     (next .forKw, call .forStmt), (next .switchKw, call .switchStmt),
     (exprStart, call (.expr false)), (someToken, call .error)]
    skip

/-- Declarations, after their modifiers. Modifiers alone are an error. -/
def declarationPhrase : Phrase Symbol :=
  mark <| inOrder
    [opt (.either (.fails (.sees 0 Kind.isDeclarationKeyword)) classModifier) (call .modifiers),
     firstOf
      [(next .funcKw, call .function), (next .initKw, call .initializer),
       (next .subscriptKw, call .subscript),
       (nextAny [.protocolKw, .structKw, .classKw, .enumKw, .extensionKw], call .typeDecl),
       (nextAny [.varKw, .letKw], call .variable), (next .importKw, call .importDecl),
       (next .typealiasKw, call .typealias), (next .caseKw, call .enumCase)]
      (wrap .error skip)]

/-- Types, with the suffixes and the arrow that may follow one. -/
def typePhrase : Phrase Symbol :=
  opt typeStart <| mark <| firstOf
    [(next .attributeName,
        node .attributedType <| inOrder [call .attributeNode, call .type]),
     (nextWord typeSpecifiers, node .attributedType <| inOrder [take, call .type])]
    (inOrder
      [firstOf [(next .ident, call .simpleType), (next .lparen, call .tupleType)]
        (call .collectionType),
       call .typeSuffixes,
       opt (.either (next .arrow)
            (.both (nextAny [.asyncKw, .throwsKw])
              (.either (second .arrow) (.sees 2 (· == .arrow))))) <|
        wrap .functionType <| inOrder [call .effects, take, call .type]])

/-- The operators, casts and alternatives that may follow an operand. -/
def exprSuffixPhrase (inCondition : Bool) : Phrase Symbol :=
  firstOf
    [(.both (next .question) .spaced,
        wrap .ternaryExpr <| inOrder
          [take, call (.expr inCondition),
           opt (next .colon) <| inOrder [take, call (.expr inCondition)]]),
     (.both binaryOperator (next .ident), inOrder
        [wrap .binaryExpr <| inOrder [take, opt unwrapMark take, call .type],
         call (.exprSuffixes inCondition)]),
     (binaryOperator, inOrder
        [wrap .binaryExpr <| inOrder [take, call .operatorRest, call (.unary inCondition)],
         call (.exprSuffixes inCondition)])]
    skip

/-- The members, calls and unwrappings that may follow an operand. In a condition a brace opens the
body and not a closure. -/
def suffixPhrase (inCondition : Bool) : Phrase Symbol :=
  let closureHere : Test := if inCondition then never else sameLine .lbrace
  let again := call (.suffixes inCondition)
  firstOf
    [(.both (next .dot) (.sees 1 fun kind => kind == .numberLiteral || kind.isName),
        inOrder [wrap .memberExpr <| inOrder [take, take], again]),
     (sameLine .lparen, inOrder
        [callOf <| inOrder [call (.argumentList .rparen), opt closureHere (call .closure)],
         again]),
     (joined .lbracket, inOrder [callOf <| call (.argumentList .rbracket), again]),
     (closureHere, inOrder [callOf <| call .closure, again]),
     (unwrapMark, inOrder [wrap .postfixExpr take, again])]
    skip

/-- Operands without an operator in front and without suffixes. -/
def primaryPhrase : Phrase Symbol :=
  firstOf
    [(nextAny [.ident, .initKw], node .identExpr take),
     (nextAny [.numberLiteral, .stringLiteral, .trueKw, .falseKw, .nilKw], node .literalExpr take),
     (next .lparen, node .tupleExpr <| call (.arguments .rparen)),
     (next .lbracket, call .arrayExpr), (next .lbrace, call .closure),
     (next .dot, node .memberExpr <| inOrder [take, take])]
    skip

/-- The procedure of a symbol. -/
def swift : Symbol → Phrase Symbol
  -- Recovery and brackets
  | .error => node .error take
  | .group =>
    firstOf
      [(next .lparen, inOrder [take, call (.inGroup .lparen .rparen 0)]),
       (next .lbracket, inOrder [take, call (.inGroup .lbracket .rbracket 0)])]
      skip
  | .inGroup opening closing depth =>
    firstOf
      [(next opening, inOrder [take, call (.inGroup opening closing (depth + 1))]),
       (next closing, inOrder
          [take,
           match depth with
           | 0 => skip
           | outer + 1 => call (.inGroup opening closing outer)]),
       (someToken, inOrder [take, call (.inGroup opening closing depth)])]
      skip
  -- Statements
  | .statements ending =>
    opt (.sees 0 fun kind => !ending.stops kind) <|
      inOrder [call .statement, call (.statements ending)]
  | .statement => statementPhrase
  | .codeBlock =>
    opt (next .lbrace) <| node .codeBlock <|
      inOrder [take, call (.statements .brace), accept .rbrace]
  | .returnStmt =>
    node .returnStmt <| inOrder [take, opt (.both (.fails .broken) exprStart) (call (.expr false))]
  | .conditions =>
    firstOf
      [(nextAny [.letKw, .varKw, .caseKw], inOrder
          [take, call .conditionPattern,
           opt (next .equals) <| inOrder [take, call (.expr true)],
           opt (next .comma) <| inOrder [take, call .conditions]]),
       (exprStart, inOrder
          [call (.expr true), opt (next .comma) <| inOrder [take, call .conditions]])]
      skip
  | .conditionPattern => upTo [.equals, .comma, .lbrace, .elseKw] .conditionPattern
  | .ifStmt =>
    node .ifStmt <| inOrder
      [take, call .conditions, call .codeBlock,
       opt (next .elseKw) <| node .elseClause <| inOrder
        [take, choose (next .ifKw) (call .ifStmt) (call .codeBlock)]]
  | .guardStmt =>
    node .guardStmt <| inOrder [take, call .conditions, accept .elseKw, call .codeBlock]
  | .whileStmt => node .whileStmt <| inOrder [take, call .conditions, call .codeBlock]
  | .forStmt =>
    node .forStmt <| inOrder
      [take, call .forPattern, opt (next .inKw) <| inOrder [take, call (.expr true)],
       opt (nextWord ["where"]) <| inOrder [take, call (.expr true)], call .codeBlock]
  | .forPattern =>
    opt (.sees 0 fun kind => kind != .inKw && kind != .lbrace) <|
      inOrder [take, call .forPattern]
  | .switchStmt =>
    node .switchStmt <| inOrder
      [take, opt exprStart (call (.expr true)),
       opt (next .lbrace) <| inOrder [take, call .switchBody, accept .rbrace]]
  | .switchBody =>
    opt (.sees 0 (· != .rbrace)) <| inOrder
      [choose (nextAny [.caseKw, .defaultKw]) (call .switchCase) (call .statement),
       call .switchBody]
  | .switchCase =>
    node .switchCase <| inOrder
      [take, call .switchLabel, accept .colon, call (.statements .caseLabel)]
  | .switchLabel => upTo [.colon, .rbrace] .switchLabel
  -- Declarations
  | .declaration => declarationPhrase
  | .modifiers => node .modifiers <| call .modifierList
  | .modifierList =>
    firstOf
      [(next .attributeName, inOrder [call .attributeNode, call .modifierList]),
       (nextWord modifierWords, inOrder [take, joinedGroup, call .modifierList]),
       (classModifier, inOrder [take, call .modifierList])]
      skip
  | .attributeNode => node .attributeNode <| inOrder [take, joinedGroup]
  | .attributeNodes =>
    opt (next .attributeName) <| inOrder [call .attributeNode, call .attributeNodes]
  | .function =>
    wrap .functionDecl <| inOrder
      [take, choose nextName take (call .operatorName), call .genericParams, call .signature,
       call .whereClause, call .codeBlock]
  | .operatorName =>
    opt (.sees 0 Kind.isOperatorPart) <| inOrder [take, call .operatorName]
  | .initializer =>
    wrap .initializerDecl <| inOrder
      [take, opt unwrapMark take, call .genericParams, call .signature, call .whereClause,
       call .codeBlock]
  | .subscript =>
    wrap .subscriptDecl <| inOrder
      [take, call .genericParams, call .parameterClause, call .returnClause, call .whereClause,
       call .codeBlock]
  | .typeDecl =>
    wrap .typeDecl <| inOrder
      [take, opt nextName <| inOrder [take, call .dottedName], call .genericParams,
       opt (next .colon) <| node .inheritanceClause <| inOrder
        [take, call .type, call .inheritedTypes],
       call .whereClause, call .codeBlock]
  | .dottedName =>
    opt (.both (next .dot) (second .ident)) <| inOrder [take, take, call .dottedName]
  | .inheritedTypes => opt (next .comma) <| inOrder [take, call .type, call .inheritedTypes]
  | .variable => wrap .variableDecl <| inOrder [take, call .bindings]
  | .bindings => inOrder
      [choose (next .lparen) (call .group) acceptName,
       opt (next .colon) <| node .typeClause <| inOrder [take, call .type],
       opt (next .equals) <| node .initializer <| inOrder [take, call (.expr false)],
       opt (sameLine .lbrace) (call .codeBlock),
       opt (next .comma) <| inOrder [take, call .bindings]]
  | .importDecl =>
    wrap .importDecl <| inOrder
      [take, opt (.sees 0 Kind.isDeclarationKeyword) take,
       opt nextName <| inOrder [take, call .importPath]]
  | .importPath => opt (sameLine .dot) <| inOrder [take, acceptName, call .importPath]
  | .typealias =>
    wrap .typealiasDecl <| inOrder
      [take, acceptName, call .genericParams, opt (next .equals) <| inOrder [take, call .type]]
  | .enumCase => wrap .enumCaseDecl <| inOrder [take, call .enumElements]
  | .enumElements => inOrder
      [acceptName, opt (next .lparen) (call .tupleType),
       opt (next .equals) <| inOrder [take, call (.expr false)],
       opt (next .comma) <| inOrder [take, call .enumElements]]
  | .genericParams =>
    opt (next .langle) <| node .genericParams <|
      inOrder [take, call .genericParamList, accept .rangle]
  | .genericParamList =>
    firstOf
      [(nextAny [.rangle, .lbrace, .lparen], skip),
       (nextAny [.comma, .ident], inOrder [take, call .genericParamList]),
       (next .colon, inOrder [take, call .type, call .genericParamList]),
       (someToken, inOrder [call .error, call .genericParamList])]
      skip
  | .signature =>
    node .functionSignature <| inOrder
      [call .parameterClause, call .effects, call .returnClause]
  | .effects =>
    opt (nextAny [.asyncKw, .throwsKw, .rethrowsKw]) <| inOrder [take, joinedGroup, call .effects]
  | .returnClause => opt (next .arrow) <| node .returnClause <| inOrder [take, call .type]
  | .parameterClause =>
    opt (next .lparen) <| node .parameterClause <|
      inOrder [take, call .parameters, accept .rparen]
  | .parameters =>
    firstOf
      [(nextAny [.rparen, .rbrace, .lbrace], skip),
       (next .comma, inOrder [take, call .parameters]),
       (someToken, inOrder [call .parameter, call .parameters])]
      skip
  | .parameter =>
    node .parameter <| choose
      (.either nextName (nextAny [.attributeName, .colon, .equals]))
      (inOrder
        [call .attributeNodes, acceptName, acceptName,
         opt (next .colon) <| inOrder [take, call .type, opt variadic take],
         opt (next .equals) <| inOrder [take, call (.expr false)]])
      (call .error)
  | .whereClause => opt (nextWord ["where"]) <| inOrder [take, call .whereWords]
  | .whereWords =>
    opt (.both (.sees 0 (· != .lbrace)) (.fails .broken)) <| inOrder [take, call .whereWords]
  -- Types
  | .type => typePhrase
  | .typeSuffixes =>
    firstOf
      [(joined .question, inOrder [wrap .optionalType take, call .typeSuffixes]),
       (joined .bang, inOrder [wrap .implicitlyUnwrappedType take, call .typeSuffixes]),
       (.both (next .dot) (second .ident), inOrder
          [wrap .memberType <| inOrder [take, take, opt (joined .langle) (call .genericArgs)],
           call .typeSuffixes])]
      skip
  | .simpleType =>
    node .simpleType <| inOrder [take, opt (joined .langle) (call .genericArgs)]
  | .genericArgs =>
    node .genericArgs <| inOrder [take, call .genericArgList, accept .rangle]
  | .genericArgList =>
    firstOf
      [(next .comma, inOrder [take, call .genericArgList]),
       (typeStart, inOrder [call .type, call .genericArgList])]
      skip
  | .tupleType =>
    node .tupleType <| inOrder [take, call .tupleElements, accept .rparen]
  | .tupleElements =>
    firstOf
      [(next .rparen, skip),
       (next .comma, inOrder [take, call .tupleElements]),
       (someToken, inOrder
          [call .tupleElement, opt (.fails (nextAny [.lbrace, .rbrace])) (call .tupleElements)])]
      skip
  | .tupleElement =>
    choose (.either .spaced (.either label (.either doubleLabel (.either typeStart variadic))))
      (node .tupleTypeElement <| inOrder
        [firstOf [(label, inOrder [take, take]), (doubleLabel, inOrder [take, take, take])] skip,
         call .type, opt variadic take])
      (node .tupleTypeElement <| call .error)
  | .collectionType =>
    mark <| inOrder
      [take, call .type,
       choose (next .colon)
        (inOrder [take, call .type, accept .rbracket, wrap .dictionaryType skip])
        (inOrder [accept .rbracket, wrap .arrayType skip])]
  -- Expressions
  | .expr inCondition =>
    mark <| opt (nextAny operandKinds) <|
      inOrder [call (.unary inCondition), call (.exprSuffixes inCondition)]
  | .exprSuffixes inCondition => exprSuffixPhrase inCondition
  | .operatorRest =>
    opt (.both (.sees 0 Kind.isOperatorPart) (.fails .spaced)) <|
      inOrder [take, call .operatorRest]
  | .unary inCondition =>
    firstOf
      [(nextAny [.operator, .bang], node .prefixExpr <| inOrder [take, call (.unary inCondition)]),
       (nextAny [.tryKw, .awaitKw], node .tryExpr <| inOrder
          [take, opt unwrapMark take, call (.expr inCondition)])]
      (call (.postfixed inCondition))
  | .postfixed inCondition =>
    mark <| opt (nextAny primaryKinds) <| inOrder [call .primary, call (.suffixes inCondition)]
  | .suffixes inCondition => suffixPhrase inCondition
  | .primary => primaryPhrase
  | .argumentList closing => node .argumentList <| call (.arguments closing)
  | .arguments closing => inOrder [take, call (.argumentItems closing), accept closing]
  | .argumentItems closing =>
    firstOf
      [(next closing, skip),
       (next .comma, inOrder [take, call (.argumentItems closing)]),
       (nextAny [.rbrace, .rparen, .rbracket], skip),
       (someToken, inOrder
          [node .argument <| inOrder
            [opt label <| inOrder [take, take],
             firstOf [(exprStart, call (.expr false)), (nextAny [closing, .comma], skip)]
              (call .error)],
           call (.argumentItems closing)])]
      skip
  | .arrayExpr =>
    node .arrayExpr <| inOrder [take, call .arrayItems, accept .rbracket]
  | .arrayItems =>
    firstOf
      [(next .rbracket, skip),
       (nextAny [.comma, .colon], inOrder [take, call .arrayItems]),
       (exprStart, inOrder [call (.expr false), call .arrayItems]),
       (nextAny [.rbrace, .rparen], skip),
       (someToken, inOrder [call .error, call .arrayItems])]
      skip
  | .closure =>
    node .closureExpr <| inOrder
      [take, opt closureHead (call .closureSignature), call (.statements .brace),
       accept .rbrace]
  | .closureSignature =>
    node .closureSignature <| inOrder
      [call .attributeNodes, opt (next .lbracket) (call .group),
       choose (next .lparen) (call .parameterClause)
        (opt (next .ident) <| node .closureParams <| call .closureNames),
       call .effects, call .returnClause, accept .inKw]
  | .closureNames =>
    opt (next .ident) <| inOrder
      [take, opt (next .comma) <| inOrder [take, call .closureNames]]

end SwiftTidy.Grammar

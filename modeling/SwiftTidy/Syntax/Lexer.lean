import SwiftTidy.Syntax.Token
import SwiftTidy.Text.Numeral

/-!
# From text to tokens

Every character of a text belongs to exactly one token. The lexer decides, for the first character of
what is left, the kind of the token that begins there and how many more characters belong to it; the
token then is exactly these characters, so nothing is lost or read twice whatever the text is.

Block comments nest, and so do string literals, through the interpolations inside them. A literal is
followed with the stack of literals and interpolations that are open, see `literalExtent`.
-/

namespace SwiftTidy

/-- Why a token is not well formed. -/
inductive LexProblem where
  /-- A block comment that the text ends inside of. -/
  | unterminatedComment
  | missingAttributeName
  /-- A backtick that no other backtick follows. -/
  | unterminatedName
  /-- A string literal that its line or the text ends inside of. -/
  | unterminatedString
  | unexpected (c : Char)
  deriving DecidableEq, Repr

/-- The wording of a problem. -/
def LexProblem.message : LexProblem → String
  | unterminatedComment => "Unterminated block comment"
  | missingAttributeName => "Expected attribute name after '@'"
  | unterminatedName => "Unterminated escaped identifier"
  | unterminatedString => "Unterminated string literal"
  | unexpected c => "Unexpected character '" ++ String.singleton c ++ "'"

/-- A problem together with the stretch of text it is reported for. -/
structure LexError where
  problem : LexProblem
  span : Span
  deriving DecidableEq, Repr

/-- A token as the lexer found it. -/
structure Lexed where
  token : Token
  /-- What is wrong with it, if anything is. -/
  problem? : Option LexProblem
  deriving DecidableEq, Repr

/-- What begins at the first character of what is left of a text. -/
structure Scan where
  kind : Kind
  /-- How many characters after the first one belong to it. -/
  more : Nat
  /-- What is wrong with it, if anything is. -/
  problem? : Option LexProblem := none

namespace Lexer

open Text

/-! ## Character classes -/

def beginsName (c : Char) : Bool := c == '_' || c == '$' || isLetter c

def continuesName (c : Char) : Bool := c == '_' || c == '$' || isLetterOrNumeral c

def continuesNumber (c : Char) : Bool := c.isAlphanum || c == '_'

def isOperatorChar (c : Char) : Bool :=
  ['=', '-', '+', '*', '/', '%', '&', '|', '^', '~', '!'].contains c

def isSpace (c : Char) : Bool := isBlank c && !isLineBreak c

/-! ## Extents

Each function below counts characters of its argument, from the first one on.
-/

/-- The characters that satisfy `p` before the first that does not. -/
def runLength (p : Char → Bool) (cs : List Char) : Nat := (cs.takeWhile p).length

def lineLength (cs : List Char) : Nat := runLength (fun c => !isLineBreak c) cs

/-- The rest of a block comment, its end included, when `depth` comments are open around the inner
one; nothing if the text ends first. -/
def commentExtent? (depth : Nat) : List Char → Option Nat
  | '/' :: '*' :: cs => (commentExtent? (depth + 1) cs).map (· + 2)
  | '*' :: '/' :: cs =>
    match depth with
    | 0 => some 2
    | outer + 1 => (commentExtent? outer cs).map (· + 2)
  | _ :: cs => (commentExtent? depth cs).map (· + 1)
  | [] => none

def backtickExtent? : List Char → Option Nat
  | [] => none
  | c :: cs => if c == '`' then some 1 else (backtickExtent? cs).map (· + 1)

def beforeComment : List Char → List Char
  | [] => []
  | '/' :: '/' :: _ => []
  | c :: cs => c :: beforeComment cs

/-- The rest of a line of conditional compilation. A comment at its end stays outside, so that a
directive in it is seen, and so do the blanks before the comment. -/
def markerExtent (cs : List Char) : Nat :=
  (trimEnd (beforeComment (cs.take (lineLength cs)))).length

/-- The rest of a number. A fraction counts only if a digit follows the point, so that a member of a
number literal is not taken for one. -/
def numberExtent (cs : List Char) : Nat :=
  let whole := runLength continuesNumber cs
  match cs.drop whole with
  | '.' :: d :: rest => if d.isDigit then whole + 2 + runLength continuesNumber rest else whole
  | _ => whole

/-! ## String literals -/

/-- Something that was opened inside a string literal and not yet closed. -/
inductive Open where
  /-- A literal, which may span lines or not. -/
  | literal (multiline : Bool)
  /-- An interpolation, with the number of parentheses open inside it. -/
  | interpolation (depth : Nat)
  deriving DecidableEq, Repr

/-- What is open after a line break: it ends every literal that may not span lines and every
interpolation, up to the nearest literal that may. -/
def Open.afterLineBreak : List Open → List Open
  | [] => []
  | .literal true :: outer => .literal true :: outer
  | _ :: outer => Open.afterLineBreak outer

/-- How much of a text belongs to a literal, and whether the literal is closed there. -/
structure Extent where
  length : Nat
  /-- Whether the last of them closes the literal. -/
  closed : Bool
  deriving DecidableEq, Repr

/-- The extent that begins `n` characters earlier. -/
def Extent.after (n : Nat) (extent : Extent) : Extent := { extent with length := extent.length + n }

/-- The rest of a string literal, when the innermost of what is open comes first in the list. -/
def literalExtent : List Open → List Char → Extent
  | [], _ => ⟨0, true⟩
  | _ :: _, [] => ⟨0, false⟩
  | .literal false :: outer, '"' :: cs => (literalExtent outer cs).after 1
  | .literal true :: outer, '"' :: '"' :: '"' :: cs => (literalExtent outer cs).after 3
  | .literal multiline :: outer, '\\' :: '(' :: cs =>
    (literalExtent (.interpolation 0 :: .literal multiline :: outer) cs).after 2
  | .literal multiline :: outer, '\\' :: _ :: cs =>
    (literalExtent (.literal multiline :: outer) cs).after 2
  | .interpolation depth :: outer, '(' :: cs =>
    (literalExtent (.interpolation (depth + 1) :: outer) cs).after 1
  | .interpolation 0 :: outer, ')' :: cs => (literalExtent outer cs).after 1
  | .interpolation (depth + 1) :: outer, ')' :: cs =>
    (literalExtent (.interpolation depth :: outer) cs).after 1
  | .interpolation depth :: outer, '"' :: '"' :: '"' :: cs =>
    (literalExtent (.literal true :: .interpolation depth :: outer) cs).after 3
  | .interpolation depth :: outer, '"' :: cs =>
    (literalExtent (.literal false :: .interpolation depth :: outer) cs).after 1
  | inner :: outer, c :: cs =>
    if isLineBreak c then
      match Open.afterLineBreak (inner :: outer) with
      | [] => ⟨0, false⟩
      | still => (literalExtent still cs).after 1
    else
      (literalExtent (inner :: outer) cs).after 1

/-! ## Tokens -/

def plain (kind : Kind) (more : Nat) : Scan := { kind, more }

/-- A string literal, after its first quote. -/
def scanString (cs : List Char) : Scan :=
  let extent :=
    match cs with
    | '"' :: '"' :: rest => (literalExtent [.literal true] rest).after 2
    | _ => literalExtent [.literal false] cs
  { kind := .stringLiteral
    more := extent.length
    problem? := if extent.closed then none else some .unterminatedString }

/-- A word after a number sign: a line of conditional compilation, or a name. -/
def scanPound (cs : List Char) : Scan :=
  let word := cs.takeWhile continuesName
  if word.isEmpty then
    plain .unknown 0
  else if ["if", "elseif", "else", "endif"].contains (String.ofList word) then
    plain .conditionalMarker (markerExtent cs)
  else
    plain .ident word.length

/-- An attribute, after its at sign. -/
def scanAttribute (cs : List Char) : Scan :=
  let length := runLength continuesName cs
  if length == 0 then
    { kind := .unknown, more := 0, problem? := some .missingAttributeName }
  else
    plain .attributeName length

/-- A name in backticks, after the first of them. -/
def scanEscapedName (cs : List Char) : Scan :=
  match backtickExtent? cs with
  | some length => plain .ident length
  | none => { kind := .ident, more := lineLength cs, problem? := some .unterminatedName }

/-- A block comment, after its first two characters. -/
def scanBlockComment (cs : List Char) : Scan :=
  match commentExtent? 0 cs with
  | some length => plain .blockComment (length + 1)
  | none =>
    { kind := .blockComment, more := cs.length + 1, problem? := some .unterminatedComment }

/-- A name or a keyword with first character `c`. -/
def scanName (c : Char) (cs : List Char) : Scan :=
  let word := cs.takeWhile continuesName
  plain ((Kind.ofKeyword? (String.ofList (c :: word))).getD .ident) word.length

/-- The token that begins with the character `c` and is continued by characters of `cs`. -/
def scan (c : Char) (cs : List Char) : Scan :=
  match c, cs with
  | '\n', _ => plain .newline 0
  | '\r', '\n' :: _ => plain .newline 1
  | '\r', _ => plain .newline 0
  | '/', '/' :: _ => plain .lineComment (lineLength cs)
  | '/', '*' :: rest => scanBlockComment rest
  | '#', _ => scanPound cs
  | '@', _ => scanAttribute cs
  | '`', _ => scanEscapedName cs
  | '"', _ => scanString cs
  | '(', _ => plain .lparen 0
  | ')', _ => plain .rparen 0
  | '{', _ => plain .lbrace 0
  | '}', _ => plain .rbrace 0
  | '[', _ => plain .lbracket 0
  | ']', _ => plain .rbracket 0
  | ',', _ => plain .comma 0
  | ':', _ => plain .colon 0
  | ';', _ => plain .semicolon 0
  | '<', _ => plain .langle 0
  | '>', _ => plain .rangle 0
  | '.', '.' :: '.' :: _ => plain .operator 2
  | '.', '.' :: '<' :: _ => plain .operator 2
  | '.', _ => plain .dot 0
  | '-', '>' :: _ => plain .arrow 1
  | '?', '?' :: _ => plain .operator 1
  | '?', _ => plain .question 0
  | '!', '=' :: _ => plain .operator (runLength isOperatorChar cs)
  | '!', _ => plain .bang 0
  | _, _ =>
    if isBlank c then
      plain .whitespace (runLength isSpace cs)
    else if beginsName c then
      scanName c cs
    else if c.isDigit then
      plain .numberLiteral (numberExtent cs)
    else if isOperatorChar c then
      let length := runLength isOperatorChar cs
      plain (if c == '=' && length == 0 then .equals else .operator) length
    else
      { kind := .unknown, more := 0, problem? := some (.unexpected c) }

/-- The tokens of the characters `cs`, in order. -/
def lexChars : List Char → List Lexed
  | [] => []
  | c :: cs =>
    let first := scan c cs
    ⟨⟨first.kind, String.ofList (c :: cs.take first.more)⟩, first.problem?⟩
      :: lexChars (cs.drop first.more)
termination_by cs => cs.length
decreasing_by
  have := List.length_drop (l := cs) (i := (scan c cs).more)
  simp only [List.length_cons]
  omega

end Lexer

def lex (text : String) : List Lexed := Lexer.lexChars text.toList

def tokensOf (text : String) : List Token := (lex text).map Lexed.token

/-- Where a problem of the token at `span` is reported, in a text of `size` bytes: at the token, and
for a missing backtick up to the end of the text, where it was looked for. -/
def LexProblem.reportedAt (size : Nat) (span : Span) : LexProblem → Span
  | unterminatedName => ⟨span.start, size⟩
  | _ => span

/-- The problems of a text, in order. -/
def lexErrors (text : String) : List LexError :=
  let lexed := lex text
  let spans := Token.spans 0 (lexed.map Lexed.token)
  (lexed.zip spans).filterMap fun (found, span) =>
    found.problem?.map fun problem => ⟨problem, problem.reportedAt text.utf8ByteSize span⟩

end SwiftTidy

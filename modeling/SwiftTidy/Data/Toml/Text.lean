import SwiftTidy.Data.Toml.Scalar

/-!
# Texts of TOML

A text stands in double quotes, where a backslash opens an escape, or in single quotes, where it does not.
Three quotes in a row open a text that may span lines, which end as they do in the document.
-/

namespace SwiftTidy.Data.Toml

def isControl (c : Char) : Bool := (c.toNat < 32 && c != '\t') || c.toNat == 127

def hexChar? (ds : List Char) : Option Char := do
  let ns ← ds.mapM (digitIn? 16)
  let n := ofDigits 16 ns
  if n.isValidChar then some (Char.ofNat n) else none

/-- The character that an escape of one letter stands for. -/
def escape? : Char → Option Char
  | 'b' => some '\x08'
  | 't' => some '\t'
  | 'n' => some '\n'
  | 'f' => some '\x0c'
  | 'r' => some '\r'
  | 'e' => some '\x1b'
  | '"' => some '"'
  | '\\' => some '\\'
  | _ => none

def push (c : Char) (read : Option (List Char × List Char)) : Option (List Char × List Char) :=
  read.map fun (text, rest) => (c :: text, rest)

/-- A text behind its double quote, and what follows it. -/
def basic? : List Char → Option (List Char × List Char)
  | [] => none
  | '"' :: cs => some ([], cs)
  | '\\' :: 'x' :: a :: b :: cs => (hexChar? [a, b]).bind fun c => push c (basic? cs)
  | '\\' :: 'u' :: a :: b :: c :: d :: cs => (hexChar? [a, b, c, d]).bind fun c => push c (basic? cs)
  | '\\' :: 'U' :: a :: b :: c :: d :: e :: f :: g :: h :: cs =>
    (hexChar? [a, b, c, d, e, f, g, h]).bind fun c => push c (basic? cs)
  | '\\' :: c :: cs => (escape? c).bind fun c => push c (basic? cs)
  | c :: cs => if isControl c || c == '\\' then none else push c (basic? cs)

/-- A text behind its single quote, and what follows it. -/
def literal? : List Char → Option (List Char × List Char)
  | [] => none
  | '\'' :: cs => some ([], cs)
  | c :: cs => if isControl c then none else push c (literal? cs)

def lineEnds (cs : List Char) : Bool :=
  match cs.dropWhile fun c => c == ' ' || c == '\t' with
  | '\n' :: _ | '\r' :: '\n' :: _ => true
  | _ => false

/-- A text behind its three double quotes, and what follows it. Up to two quotes may stand right before the
three that end it. A backslash at the end of a line takes out all blanks and line ends up to the next
character, and `trims` says that this is going on. -/
def longBasic? (trims : Bool) : List Char → Option (List Char × List Char)
  | [] => none
  | '"' :: '"' :: '"' :: '"' :: '"' :: cs => some (['"', '"'], cs)
  | '"' :: '"' :: '"' :: '"' :: cs => some (['"'], cs)
  | '"' :: '"' :: '"' :: cs => some ([], cs)
  | '\\' :: 'x' :: a :: b :: cs => (hexChar? [a, b]).bind fun c => push c (longBasic? false cs)
  | '\\' :: 'u' :: a :: b :: c :: d :: cs =>
    (hexChar? [a, b, c, d]).bind fun c => push c (longBasic? false cs)
  | '\\' :: 'U' :: a :: b :: c :: d :: e :: f :: g :: h :: cs =>
    (hexChar? [a, b, c, d, e, f, g, h]).bind fun c => push c (longBasic? false cs)
  | '\\' :: c :: cs =>
    if lineEnds (c :: cs) then longBasic? true cs
    else (escape? c).bind fun c => push c (longBasic? false cs)
  | '\r' :: '\n' :: cs =>
    if trims then longBasic? true cs else push '\r' (push '\n' (longBasic? false cs))
  | c :: cs =>
    if trims && (c == ' ' || c == '\t' || c == '\n') then longBasic? true cs
    else if c == '\n' then push c (longBasic? false cs)
    else if isControl c || c == '\\' then none
    else push c (longBasic? false cs)

/-- A text behind its three single quotes, and what follows it. -/
def longLiteral? : List Char → Option (List Char × List Char)
  | [] => none
  | '\'' :: '\'' :: '\'' :: '\'' :: '\'' :: cs => some (['\'', '\''], cs)
  | '\'' :: '\'' :: '\'' :: '\'' :: cs => some (['\''], cs)
  | '\'' :: '\'' :: '\'' :: cs => some ([], cs)
  | '\r' :: '\n' :: cs => push '\r' (push '\n' (longLiteral? cs))
  | c :: cs => if isControl c && c != '\n' then none else push c (longLiteral? cs)

/-- What follows a line end, if `cs` begins with one. A text that spans lines does not begin with it. -/
def afterLineEnd : List Char → List Char
  | '\n' :: cs => cs
  | '\r' :: '\n' :: cs => cs
  | cs => cs

/-- A text in quotes, and what follows it. -/
def text? : List Char → Option (List Char × List Char)
  | '"' :: '"' :: '"' :: cs => longBasic? false (afterLineEnd cs)
  | '"' :: cs => basic? cs
  | '\'' :: '\'' :: '\'' :: cs => longLiteral? (afterLineEnd cs)
  | '\'' :: cs => literal? cs
  | _ => none

end SwiftTidy.Data.Toml

import SwiftTidy.Syntax.Kind

/-!
# Tokens

A token is a kind and the text it was read from. The texts of a file's tokens in order are the file,
so the place of a token is the number of bytes of the texts before it.
-/

namespace SwiftTidy

/-- A leaf of the syntax tree: a piece of the text, trivia included. -/
structure Token where
  kind : Kind
  text : String
  deriving DecidableEq, Repr, Inhabited

/-- A stretch of the text, from a first byte up to but excluding a last one. -/
structure Span where
  start : Nat
  stop : Nat
  deriving DecidableEq, Repr, Inhabited

namespace Token

def width (token : Token) : Nat := token.text.utf8ByteSize

def isTrivia (token : Token) : Bool := token.kind.isTrivia

/-- Whether the token ends a line for the grammar: a line break, a line of conditional compilation,
or a block comment that spans lines. -/
def breaksLine (token : Token) : Bool :=
  match token.kind with
  | .newline | .conditionalMarker => true
  | .blockComment => token.text.toList.contains '\n'
  | _ => false

def textOf (tokens : List Token) : String := String.join (tokens.map Token.text)

/-- The text of two rows of tokens is the text of the first and then that of the second. -/
theorem textOf_append (front back : List Token) : textOf (front ++ back) = textOf front ++ textOf back := by
  simp [textOf]

/-- The spans of tokens that stand in a row from byte `start` on. -/
def spans (start : Nat) : List Token → List Span
  | [] => []
  | token :: rest => ⟨start, start + token.width⟩ :: spans (start + token.width) rest

end Token

end SwiftTidy

import SwiftTidy.Grammar.Swift
import SwiftTidy.Syntax.Lexer

/-!
# From tokens to a tree

The tree of a row of tokens is one `sourceFile` node around its statements. What is left after the last
statement is trivia and ends the node.
-/

namespace SwiftTidy

open Grammar

/-- How many symbols may be open at a time. Between two tokens that are taken, fewer than sixteen
symbols are opened, so this many are never needed. -/
def openSymbols (tokens : List Token) : Nat := 16 * (tokens.length + 1)

def parseTokens (tokens : List Token) : Tree :=
  let s := derive swift (openSymbols tokens) (.statements .fileEnd) ⟨[], tokens⟩
  .node .sourceFile s.flush.built

def parse (text : String) : Tree := parseTokens (tokensOf text)

end SwiftTidy

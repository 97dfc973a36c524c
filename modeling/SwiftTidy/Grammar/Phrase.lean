import SwiftTidy.Syntax.Tree

/-!
# Phrases of a grammar

A grammar that never fails is a procedure for each of its symbols: take the next token, open a node,
look ahead and decide, call another symbol. Here such procedures are data, a `Phrase`, and one function
runs them, so what holds of every grammar is proved of that function alone.

Trivia is not looked at one by one. A decision may ask for the coming tokens that are not trivia,
whether there is any trivia before the next one, and whether a line ends there. Trivia moves into the
tree when the token after it is taken or a node opens before that token.
-/

namespace SwiftTidy.Grammar

/-! ## Looking ahead -/

/-- The `n`th of the coming tokens that are not trivia. -/
def ahead? (n : Nat) : List Token → Option Token
  | [] => none
  | token :: rest =>
    if token.isTrivia then ahead? n rest
    else
      match n with
      | 0 => some token
      | n + 1 => ahead? n rest

def gap (tokens : List Token) : List Token := tokens.takeWhile Token.isTrivia

def pastGap (tokens : List Token) : List Token := tokens.dropWhile Token.isTrivia

theorem gap_append_pastGap (tokens : List Token) : gap tokens ++ pastGap tokens = tokens :=
  List.takeWhile_append_dropWhile

/-- A question about the coming tokens. -/
inductive Test where
  /-- Is there an `n`th token whose kind satisfies `p`? -/
  | sees (n : Nat) (p : Kind → Bool)
  /-- Is the next token spelled as one of these words? -/
  | spelled (words : List String)
  /-- Does trivia stand before the next token? -/
  | spaced
  /-- Does a line end before the next token? -/
  | broken
  /-- Does a decision over all coming tokens that are not trivia hold? -/
  | scans (p : List Token → Bool)
  | both (a b : Test)
  | either (a b : Test)
  /-- Does the question have the answer no? -/
  | fails (a : Test)

/-- The answer to a question. -/
def Test.holds : Test → List Token → Bool
  | .sees n p, tokens => (ahead? n tokens).any fun token => p token.kind
  | .spelled words, tokens => (ahead? 0 tokens).any fun token => words.contains token.text
  | .spaced, tokens => !(gap tokens).isEmpty
  | .broken, tokens => (gap tokens).any Token.breaksLine
  | .scans p, tokens => p (tokens.filter fun token => !token.isTrivia)
  | .both a b, tokens => a.holds tokens && b.holds tokens
  | .either a b, tokens => a.holds tokens || b.holds tokens
  | .fails a, tokens => !a.holds tokens

/-! ## Phrases -/

/-- A procedure of a grammar with symbols `σ`. -/
inductive Phrase (σ : Type) where
  | skip
  /-- Take the next token, with the trivia before it. -/
  | take
  | call (symbol : σ)
  | seq (first second : Phrase σ)
  /-- The first if the test holds, otherwise the second. -/
  | choose (test : Test) (yes no : Phrase σ)
  /-- After the trivia that comes next, a node around what the body builds. -/
  | node (kind : Kind) (body : Phrase σ)
  /-- After the trivia that comes next, the body, whose wraps reach back to here. -/
  | mark (body : Phrase σ)
  /-- A node around everything since the mark and what the body builds. -/
  | wrap (kind : Kind) (body : Phrase σ)

namespace Phrase

variable {σ : Type}

def inOrder (phrases : List (Phrase σ)) : Phrase σ := phrases.foldr seq skip

def opt (test : Test) (body : Phrase σ) : Phrase σ := choose test body skip

def firstOf (cases : List (Test × Phrase σ)) (otherwise : Phrase σ) : Phrase σ :=
  cases.foldr (fun (test, body) rest => choose test body rest) otherwise

end Phrase

/-! ## Running a phrase -/

/-- How far the reading has come. -/
structure Progress where
  /-- The trees built since the last mark. -/
  built : List Tree
  rest : List Token

namespace Progress

def flush (s : Progress) : Progress :=
  ⟨s.built ++ (gap s.rest).map Tree.leaf, pastGap s.rest⟩

def shift (s : Progress) : Progress :=
  match s.rest with
  | [] => s
  | token :: rest => ⟨s.built ++ [.leaf token], rest⟩

def fresh (s : Progress) : Progress := ⟨[], s.rest⟩

def tokens (s : Progress) : List Token := Tree.leavesOf s.built ++ s.rest

@[simp] theorem tokens_flush (s : Progress) : s.flush.tokens = s.tokens := by
  simp [tokens, flush, gap_append_pastGap]

@[simp] theorem tokens_shift (s : Progress) : s.shift.tokens = s.tokens := by
  unfold shift tokens
  cases h : s.rest <;> simp [h]

end Progress

variable {σ : Type}

/-- What a phrase does, when `call` says what the symbols do. -/
def Phrase.run (call : σ → Progress → Progress) : Phrase σ → Progress → Progress
  | .skip, s => s
  | .take, s => s.flush.shift
  | .call symbol, s => call symbol s
  | .seq first second, s => second.run call (first.run call s)
  | .choose test yes no, s => if test.holds s.rest then yes.run call s else no.run call s
  | .node kind body, s =>
    let start := s.flush
    let inner := body.run call start.fresh
    ⟨start.built ++ [.node kind inner.built], inner.rest⟩
  | .mark body, s =>
    let start := s.flush
    let inner := body.run call start.fresh
    ⟨start.built ++ inner.built, inner.rest⟩
  | .wrap kind body, s =>
    let inner := body.run call s
    ⟨[.node kind inner.built], inner.rest⟩

/-- What a symbol does, when at most `steps` symbols may be open at a time. -/
def derive (phrase : σ → Phrase σ) : Nat → σ → Progress → Progress
  | 0, _, s => s
  | steps + 1, symbol, s => (phrase symbol).run (derive phrase steps) s

/-- A phrase neither drops nor repeats nor moves a token, if the symbols it calls do not. -/
theorem Phrase.tokens_run (call : σ → Progress → Progress)
    (keeps : ∀ symbol s, (call symbol s).tokens = s.tokens) (phrase : Phrase σ) (s : Progress) :
    (phrase.run call s).tokens = s.tokens := by
  induction phrase generalizing s with
  | skip => rfl
  | take => simp [run]
  | call symbol => exact keeps symbol s
  | seq first second ih₁ ih₂ => rw [run, ih₂, ih₁]
  | choose test yes no ih₁ ih₂ =>
    rw [run]
    split
    · exact ih₁ s
    · exact ih₂ s
  | node kind body ih =>
    have inner := ih s.flush.fresh
    rw [← Progress.tokens_flush s]
    simp only [Progress.tokens, Progress.fresh, Tree.leavesOf_nil, List.nil_append] at inner
    simp [run, Progress.tokens, Progress.fresh, inner]
  | mark body ih =>
    have inner := ih s.flush.fresh
    rw [← Progress.tokens_flush s]
    simp only [Progress.tokens, Progress.fresh, Tree.leavesOf_nil, List.nil_append] at inner
    simp [run, Progress.tokens, Progress.fresh, inner]
  | wrap kind body ih =>
    have inner := ih s
    simpa [run, Progress.tokens] using inner

/-- No symbol of any grammar drops, repeats or moves a token. -/
theorem tokens_derive (phrase : σ → Phrase σ) (steps : Nat) (symbol : σ) (s : Progress) :
    (derive phrase steps symbol s).tokens = s.tokens := by
  induction steps generalizing symbol s with
  | zero => rfl
  | succ steps ih => exact Phrase.tokens_run _ ih _ s

end SwiftTidy.Grammar

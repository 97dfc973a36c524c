import SwiftTidy.Proofs.Operations
import SwiftTidy.Proofs.Questions
import SwiftTidy.Rules.Expectation

/-!
# Trees with parts exchanged

When some calls of a tree are exchanged for operations, or return clauses are taken out of
signatures, what does a reader of the new tokens see? Some tokens stay, and in the place of others
come new ones or none. Reading goes the same way as before as long as no question gets another
answer at a token that stays (`Graft.Steady`).

A run of the grammar is followed from its end to its beginning. At the end the trees show which
parts of them were exchanged; at the beginning only tokens are left. What each step does is said in
`Graft.follows_take` and the lemmas after it. Where a run ends with a token that it takes, nothing
is asked behind it, and what comes there does not matter (`Graft.Closes`).
-/

namespace SwiftTidy

namespace Kind

/-- Kinds of nodes in which a call can be exchanged for an operation: no operator and no suffix
binds it there. In a type there are no calls. -/
def seats (kind : Kind) : Bool := kind.rank != 0 && !Rules.Expectation.bindsTightly kind

/-- Whether what stands in a node of a kind may be in the head of a statement, given whether the
node may. -/
def heads (inHead : Bool) : Kind → Bool
  | .ifStmt | .guardStmt | .whileStmt | .forStmt | .switchStmt => true
  | .codeBlock | .closureExpr | .switchCase | .argumentList | .tupleExpr | .arrayExpr => false
  | _ => inHead

/-- Kinds of nodes in which a return clause may be left out. -/
def sheds (kind : Kind) : Bool := kind == .functionSignature || kind == .closureSignature

end Kind

namespace Grammar

open Phrase Test

/-! ## Rows of which parts are exchanged -/

/-- A piece of a row of tokens: a token that stays, tokens in whose place others come, or a clause
that is left out. -/
inductive Segment where
  | keep (token : Token)
  | trade (old new : List Token)
  | drop (old : List Token)

/-- The tokens at first or later. -/
def Segment.tokens (later : Bool) : Segment → List Token
  | .keep token => [token]
  | .trade old new => bif later then new else old
  | .drop old => bif later then [] else old

namespace Graft

/-- The tokens of a row at first or later. -/
def row (later : Bool) (e : List Segment) : List Token := e.flatMap (·.tokens later)

variable {e e' : List Segment} {lead : List Token} {token : Token}

@[simp] lemma row_append (later : Bool) (front back : List Segment) :
    row later (front ++ back) = row later front ++ row later back := List.flatMap_append

@[simp] lemma row_cons (later : Bool) (segment : Segment) (e : List Segment) :
    row later (segment :: e) = segment.tokens later ++ row later e := List.flatMap_cons

@[simp] lemma row_nil (later : Bool) : row later [] = [] := rfl

@[simp] lemma row_map_keep (later : Bool) (tokens : List Token) :
    row later (tokens.map .keep) = tokens := by
  induction tokens with
  | nil => rfl
  | cons token tokens ih => rw [List.map_cons, row_cons, ih, Segment.tokens, List.singleton_append]

/-- No tokens are exchanged for nothing next. -/
def isFirm : List Segment → Bool
  | .trade _ [] :: _ => false
  | _ => true

/-- A token that stays comes next, and behind it none are exchanged for nothing; or the row is at
its end. -/
def isWatched : List Segment → Bool
  | [] => true
  | .keep _ :: e => isFirm e
  | _ => false

/-- Each piece has tokens at first. At each token that stays the tokens to come look the same at
first and later; nothing is said of a token behind which others are exchanged for nothing. -/
def Steady (whole : List Segment) : Prop :=
  (∀ segment ∈ whole, segment.tokens false ≠ []) ∧
    ∀ e, e <:+ whole → isWatched e = true → SameView (row false e) (row true e)

instance (whole : List Segment) : Decidable (Steady whole) :=
  decidable_of_iff'
    ((∀ segment ∈ whole, segment.tokens false ≠ []) ∧
      ∀ e ∈ whole.tails, isWatched e = true → SameView (row false e) (row true e))
    (by simp only [Steady, List.mem_tails])

lemma Steady.suffix (h : Steady e) (hsuffix : e' <:+ e) : Steady e' :=
  ⟨fun _ hmem => h.1 _ (hsuffix.subset hmem), fun _ hlast => h.2 _ (hlast.trans hsuffix)⟩

/-- Where a row is cut is said by the tokens at first. -/
lemma Steady.eq_of_row_eq {whole : List Segment} (h : Steady whole) (he : e <:+ whole)
    (he' : e' <:+ whole) (hrow : row false e = row false e') : e = e' := by
  have hnil {front e : List Segment} (hsuffix : front ++ e <:+ whole)
      (hrow : row false (front ++ e) = row false e) : front = [] := by
    cases front with
    | nil => rfl
    | cons segment front =>
      have htokens := h.1 segment (hsuffix.subset (List.mem_append_left _ List.mem_cons_self))
      rw [row_append, row_cons, List.append_left_eq_self, List.append_eq_nil_iff] at hrow
      exact absurd hrow.1 htokens
  obtain ⟨front, rfl⟩ | ⟨front, rfl⟩ := List.suffix_or_suffix_of_suffix he he'
  · rw [hnil he' hrow.symm, List.nil_append]
  · rw [hnil he hrow, List.nil_append]

/-- Reading may stop here: the tokens to come look the same at first and later. -/
structure Clear (e : List Segment) : Prop where
  firm : isFirm e = true
  view : SameView (row false e) (row true e)

/-- Reading may begin here: with the same token at first and later. -/
structure Loose (e : List Segment) : Prop where
  firm : isFirm e = true
  near : Near (row false e) (row true e)

lemma Clear.loose (h : Clear e) : Loose e := ⟨h.firm, h.view.toNear⟩

lemma Loose.clear (h : Loose e) (hcloser : (nextAny closers).holds (row false e) = true) : Clear e :=
  ⟨h.firm, h.near.sameView hcloser⟩

lemma Loose.append (h : Loose e) (hlead : ∀ token ∈ lead, token.isTrivia = true) :
    Loose (lead.map .keep ++ e) := by
  constructor
  · cases lead with
    | nil => exact h.firm
    | cons token lead => rfl
  · rw [row_append, row_append, row_map_keep, row_map_keep]
    exact near_append hlead h.near

lemma Clear.append (h : Clear e) (hlead : ∀ token ∈ lead, token.isTrivia = true)
    (hsteady : Steady (lead.map .keep ++ e)) : Clear (lead.map .keep ++ e) := by
  have hloose := h.loose.append hlead
  refine ⟨hloose.firm, ?_⟩
  cases lead with
  | nil => exact h.view
  | cons token lead =>
    refine hsteady.2 _ List.suffix_rfl ?_
    cases lead with
    | nil => exact h.firm
    | cons token lead => rfl

lemma loose_cons (htoken : token.isTrivia = false) (e : List Segment) : Loose (.keep token :: e) :=
  ⟨rfl, by simpa [Segment.tokens] using near_cons htoken _ _⟩

end Graft

/-! ## Grafts -/

/-- What comes to stand to the right of an operator. -/
inductive Side where
  | literal (token : Token)
  | plain
  | group

namespace Side

/-- The tokens before the operand. -/
def lead : Side → List Token
  | .literal token => [token]
  | .plain => []
  | .group => [⟨.lparen, "("⟩]

/-- The tokens behind the operand. -/
def tail : Side → List Token
  | .literal _ | .plain => []
  | .group => [⟨.rparen, ")"⟩]

/-- Whether the operand may be exchanged itself. -/
def seated : Side → Bool
  | .literal _ | .plain => false
  | .group => true

/-- The right side with the given operands. A literal has none, and otherwise there is one. -/
def tree : Side → List Tree → Tree
  | .literal token, operands => .node .literalExpr (.leaf token :: operands)
  | .plain, [operand] => operand
  | .plain, operands => .node .error operands
  | .group, operands =>
    .node .tupleExpr (.leaf ⟨.lparen, "("⟩ ::
      (operands.map (fun operand => .node .argument [operand]) ++ [.leaf ⟨.rparen, ")"⟩]))

lemma leaves_tree (side : Side) (operands : List Tree) :
    (side.tree operands).leaves = side.lead ++ (Tree.leavesOf operands ++ side.tail) := by
  have hmap (operands : List Tree) :
      Tree.leavesOf (operands.map fun operand => .node .argument [operand]) =
        Tree.leavesOf operands := by
    induction operands with
    | nil => rfl
    | cons operand operands ih => simp [ih]
  unfold tree
  split <;> simp [lead, tail, hmap]

end Side

/-- How a call is exchanged for an operation. -/
structure Exchange where
  operator : Operator
  side : Side
  /-- The tokens that are left out behind the subject. -/
  front : List Token
  /-- The tokens that are left out behind the operand. -/
  back : List Token

namespace Exchange

variable (exchange : Exchange)

/-- What comes between the subject and the operand. -/
def opening : Segment :=
  .trade exchange.front (exchange.operator.between ++ exchange.side.lead)

/-- What comes behind the operand. -/
def closing : Segment := .trade exchange.back exchange.side.tail

end Exchange

/-- A tree with some parts exchanged: what stands there at first and what stands there later. A
return clause is left out with the trivia before it. -/
inductive Graft where
  | leaf (token : Token)
  | node (kind : Kind) (children : List Graft)
  | swap (old : Tree) (exchange : Exchange) (subject : Graft) (operands : List Graft)
  | shed (kind : Kind) (front : List Graft) (lead : List Token) (clause : List Tree)
    (tail : List Graft)

namespace Graft

mutual

/-- The tree at first or later. -/
def tree (later : Bool) : Graft → Tree
  | .leaf token => .leaf token
  | .node kind children => .node kind (treesOf later children)
  | .swap old exchange subject operands =>
    bif later then
      exchange.operator.tree (subject.tree later) (exchange.side.tree (treesOf later operands))
    else old
  | .shed kind front lead clause tail =>
    .node kind (treesOf later front ++
      ((bif later then [] else lead.map .leaf ++ [.node .returnClause clause]) ++
        treesOf later tail))

/-- The trees of a row at first or later. -/
def treesOf (later : Bool) : List Graft → List Tree
  | [] => []
  | graft :: rest => graft.tree later :: treesOf later rest

end

mutual

/-- The tokens, piece by piece. -/
def segments : Graft → List Segment
  | .leaf token => [.keep token]
  | .node _ children => segmentsOf children
  | .swap _ exchange subject operands =>
    subject.segments ++ exchange.opening :: (segmentsOf operands ++ [exchange.closing])
  | .shed _ front lead clause tail =>
    segmentsOf front ++ .drop (lead ++ Tree.leavesOf clause) :: segmentsOf tail

/-- The tokens of a row. -/
def segmentsOf : List Graft → List Segment
  | [] => []
  | graft :: rest => graft.segments ++ segmentsOf rest

end

lemma treesOf_eq_map (later : Bool) (grafts : List Graft) :
    treesOf later grafts = grafts.map (tree later) := by
  induction grafts with
  | nil => rfl
  | cons graft rest ih => rw [treesOf, ih, List.map_cons]

@[simp] lemma treesOf_append (later : Bool) (front back : List Graft) :
    treesOf later (front ++ back) = treesOf later front ++ treesOf later back := by
  simp only [treesOf_eq_map, List.map_append]

lemma treesOf_drop (later : Bool) (grafts : List Graft) (n : Nat) :
    treesOf later (grafts.drop n) = (treesOf later grafts).drop n := by
  rw [treesOf_eq_map, treesOf_eq_map, List.map_drop]

lemma treesOf_take (later : Bool) (grafts : List Graft) (n : Nat) :
    treesOf later (grafts.take n) = (treesOf later grafts).take n := by
  rw [treesOf_eq_map, treesOf_eq_map, List.map_take]

@[simp] lemma segmentsOf_append (front back : List Graft) :
    segmentsOf (front ++ back) = segmentsOf front ++ segmentsOf back := by
  induction front with
  | nil => rfl
  | cons graft rest ih => rw [List.cons_append, segmentsOf, ih, segmentsOf, List.append_assoc]

@[simp] lemma treesOf_nil (later : Bool) : treesOf later [] = [] := rfl

@[simp] lemma segmentsOf_nil : segmentsOf [] = [] := rfl

@[simp] lemma segmentsOf_singleton (graft : Graft) : segmentsOf [graft] = graft.segments :=
  List.append_nil _

@[simp] lemma segments_node (kind : Kind) (children : List Graft) :
    segments (.node kind children) = segmentsOf children := rfl

lemma segments_shed_append (kind : Kind) (front : List Graft) (lead : List Token)
    (clause : List Tree) (tail : List Graft) (e : List Segment) :
    (shed kind front lead clause tail).segments ++ e =
      segmentsOf front ++ .drop (lead ++ Tree.leavesOf clause) :: (segmentsOf tail ++ e) := by
  rw [segments, List.append_assoc, List.cons_append]

@[simp] lemma treesOf_map_leaf (later : Bool) (tokens : List Token) :
    treesOf later (tokens.map leaf) = tokens.map .leaf := by
  rw [treesOf_eq_map, List.map_map]
  rfl

@[simp] lemma segmentsOf_map_leaf (tokens : List Token) :
    segmentsOf (tokens.map leaf) = tokens.map .keep := by
  induction tokens with
  | nil => rfl
  | cons token tokens ih =>
    rw [List.map_cons, segmentsOf, ih, segments, List.singleton_append, List.map_cons]

mutual

lemma row_segments (graft : Graft) : row true graft.segments = (graft.tree true).leaves := by
  cases graft with
  | leaf token => rfl
  | node kind children => exact row_segmentsOf children
  | swap old exchange subject operands =>
    simp [segments, tree, Operator.leaves_tree, Side.leaves_tree, Exchange.opening,
      Exchange.closing, Segment.tokens, row_segments subject, row_segmentsOf operands]
  | shed kind front lead clause tail =>
    simp [segments, tree, Segment.tokens, row_segmentsOf front, row_segmentsOf tail]

lemma row_segmentsOf (grafts : List Graft) :
    row true (segmentsOf grafts) = Tree.leavesOf (treesOf true grafts) := by
  cases grafts with
  | nil => rfl
  | cons graft rest =>
    rw [segmentsOf, row_append, row_segments graft, row_segmentsOf rest]
    rfl

end

end Graft

/-! ## Where a part may be exchanged -/

/-- Whether a symbol may be called where expressions can be exchanged or cannot, and in a head or
outside. -/
def Symbol.suits (seated inHead : Bool) : Symbol → Bool
  | .expr inCondition => !inCondition || inHead
  | .exprSuffixes inCondition => seated && (!inCondition || inHead)
  | .unary inCondition | .postfixed inCondition | .suffixes inCondition =>
    !seated && (!inCondition || inHead)
  | .conditions => inHead
  | .statements _ | .statement | .switchBody | .declaration | .function | .initializer | .subscript
  | .typeDecl | .variable | .importDecl | .typealias | .enumCase => seated
  | _ => true

/-- Whether a phrase reads an operand, which can be exchanged for an operation, and what goes on
with it. -/
def Phrase.opens (inHead : Bool) : Phrase Symbol → Bool
  | .skip => true
  | .choose _ yes no => yes.opens inHead && no.opens inHead
  | .seq (.call (.unary a)) (.seq (.call (.exprSuffixes b)) .skip) => a == b && (!a || inHead)
  | _ => false

/-- Whether a phrase calls symbols only where they may be called, and puts no node around
expressions that can be exchanged only before. -/
def Phrase.suits (seated inHead : Bool) : Phrase Symbol → Bool
  | .skip | .take => true
  | .call X => X.suits seated inHead
  | .seq first second => first.suits seated inHead && second.suits seated inHead
  | .choose _ yes no => yes.suits seated inHead && no.suits seated inHead
  | .node kind body => kind != .callExpr && body.suits kind.seats (kind.heads inHead)
  | .mark body => body.suits seated inHead || body.opens inHead
  | .wrap kind body =>
    (kind != .callExpr || !seated) && (!kind.seats || seated) && kind.heads inHead == inHead &&
      !kind.sheds && body.suits kind.seats (kind.heads inHead)

lemma suits_swift {X : Symbol} {seated inHead : Bool} (h : X.suits seated inHead = true) :
    (swift X).suits seated inHead = true := by
  cases X with
  | inGroup opening closing depth => cases depth <;> rfl
  | expr inCondition | unary inCondition | postfixed inCondition | suffixes inCondition
  | exprSuffixes inCondition =>
    cases seated <;> cases inCondition <;> cases inHead <;> first | rfl | cases h
  | _ => cases seated <;> cases inHead <;> first | rfl | cases h

lemma Phrase.exists_of_opens {inHead : Bool} {first second : Phrase Symbol}
    (h : (Phrase.seq first second).opens inHead = true) :
    ∃ inCondition, Phrase.seq first second = exprChain inCondition ∧
      (inCondition = true → inHead = true) := by
  unfold opens at h
  split at h
  next heq => cases heq
  next heq => cases heq
  next a b heq =>
    obtain ⟨rfl, hhead⟩ : a = b ∧ (a = false ∨ inHead = true) := by simpa using h
    exact ⟨a, heq, fun ha => hhead.resolve_left (by simp [ha])⟩
  next => cases h

/-- What an exchange relies on. The call is one of a member of the subject, which ends by itself,
and so does the operand; one that is put in parentheses has a closing one directly behind it
anyway. -/
structure Exchange.Stands (exchange : Exchange) (inHead : Bool) (old subject : Tree)
    (operands : List Tree) (rest : List Token) : Prop where
  shape : ∃ dots more, old = .node .callExpr (.node .memberExpr (subject :: dots) :: more)
  subject : subject.stands inHead = true
  side : match exchange.side with
    | .literal token =>
      operands = [] ∧ [Kind.trueKw, .falseKw, .nilKw].contains token.kind = true
    | .plain => ∃ operand, operands = [operand] ∧ operand.stands inHead = true ∧
        Argued operand (exchange.back ++ rest)
    | .group => ∃ operand, operands = [operand] ∧ Argued operand (exchange.back ++ rest) ∧
        (exchange.back ++ rest).head? = some ⟨.rparen, ")"⟩

/-- Tokens with which a signature could go on. -/
def continuing : List Kind := [.asyncKw, .throwsKw, .rethrowsKw, .lparen, .arrow]

/-- Whether a node holds the parameters of a signature, with a closing parenthesis behind those
that have an opening one. -/
def Tree.holdsParameters : Tree → Bool
  | .node .parameterClause children => (Tree.node .parameterClause children).isShut
  | .node .closureParams _ => true
  | _ => false

/-- Whether a signature can do without its return clause: its parameters end by themselves, and what
comes behind the clause does not go on with them. -/
def parts (kind : Kind) (front : List Tree) (lead : List Token) (tail : List Tree)
    (rest : List Token) : Bool :=
  kind.sheds && front.any Tree.holdsParameters && front.getLast?.all (!·.isTriviaLeaf) &&
    lead.all Token.isTrivia &&
      bif kind == .functionSignature then tail.isEmpty && !(nextAny continuing).holds rest
      else !tail.isEmpty && tail.all (!·.isNode)

namespace Graft

mutual

/-- Exchanged parts stand where this can be done, and what is said of them is right. -/
def Fits (seated inHead : Bool) : Graft → List Token → Prop
  | .leaf _, _ => True
  | .node kind children, r => FitsOf kind.seats (kind.heads inHead) children r
  | .swap old exchange subject operands, r =>
    (seated = true ∧ old.isNode = true ∧ old.kind = .callExpr ∧
      old.leaves = (subject.tree false).leaves ++
        (exchange.front ++ (Tree.leavesOf (treesOf false operands) ++ exchange.back))) ∧
    subject.Fits false inHead
      (exchange.front ++ (Tree.leavesOf (treesOf false operands) ++ (exchange.back ++ r))) ∧
    FitsOf exchange.side.seated false operands (exchange.back ++ r) ∧
    exchange.Stands inHead old (subject.tree false) (treesOf false operands) r
  | .shed kind front lead clause tail, r =>
    FitsOf kind.seats (kind.heads inHead) front
      (lead ++ (Tree.leavesOf clause ++ (Tree.leavesOf (treesOf false tail) ++ r))) ∧
    FitsOf kind.seats (kind.heads inHead) tail r ∧
    parts kind (treesOf false front) lead (treesOf false tail) r = true

/-- This is so for all parts of a row. -/
def FitsOf (seated inHead : Bool) : List Graft → List Token → Prop
  | [], _ => True
  | graft :: rest, r =>
    graft.Fits seated inHead (Tree.leavesOf (treesOf false rest) ++ r) ∧
      FitsOf seated inHead rest r

end

variable {seated inHead : Bool} {graft : Graft} {grafts : List Graft} {e : List Segment}
  {r : List Token}

lemma fitsOf_append {front back : List Graft} : FitsOf seated inHead (front ++ back) r ↔
    FitsOf seated inHead front (Tree.leavesOf (treesOf false back) ++ r) ∧
      FitsOf seated inHead back r := by
  induction front with
  | nil => exact ⟨fun h => ⟨trivial, h⟩, fun h => h.2⟩
  | cons graft rest ih =>
    rw [List.cons_append, FitsOf, FitsOf, ih, treesOf_append, Tree.leavesOf_append,
      List.append_assoc, and_assoc]

lemma fitsOf_of_getElem?
    (h : ∀ (i : Nat) graft, grafts[i]? = some graft →
      graft.Fits seated inHead (Tree.leavesOf (treesOf false (grafts.drop (i + 1))) ++ r)) :
    FitsOf seated inHead grafts r := by
  induction grafts with
  | nil => trivial
  | cons graft rest ih => exact ⟨h 0 graft rfl, ih fun i graft hi => h (i + 1) graft hi⟩

lemma FitsOf.mono {seated' : Bool} (hseat : seated = true → seated' = true)
    (h : FitsOf seated inHead grafts r) : FitsOf seated' inHead grafts r := by
  induction grafts with
  | nil => trivial
  | cons graft rest ih =>
    refine ⟨?_, ih h.2⟩
    cases graft with
    | leaf | node | shed => exact h.1
    | swap => exact ⟨⟨hseat h.1.1.1, h.1.1.2⟩, h.1.2⟩

mutual

lemma Fits.row_eq (graft : Graft) {seated inHead : Bool} {r : List Token}
    (h : graft.Fits seated inHead r) : row false graft.segments = (graft.tree false).leaves := by
  cases graft with
  | leaf token => rfl
  | node kind children => exact FitsOf.row_eq children h
  | swap old exchange subject operands =>
    obtain ⟨⟨-, -, -, hold⟩, hsubject, hoperands, -⟩ := h
    simp [segments, tree, Exchange.opening, Exchange.closing, Segment.tokens,
      Fits.row_eq subject hsubject, FitsOf.row_eq operands hoperands, hold]
  | shed kind front lead clause tail =>
    simp [segments, tree, Segment.tokens, FitsOf.row_eq front h.1, FitsOf.row_eq tail h.2.1]

lemma FitsOf.row_eq (grafts : List Graft) {seated inHead : Bool} {r : List Token}
    (h : FitsOf seated inHead grafts r) :
    row false (segmentsOf grafts) = Tree.leavesOf (treesOf false grafts) := by
  cases grafts with
  | nil => rfl
  | cons graft rest =>
    rw [segmentsOf, row_append, Fits.row_eq graft h.1, FitsOf.row_eq rest h.2]
    rfl

end

lemma eq_map_leaf {tokens : List Token} (hfits : FitsOf seated inHead grafts r)
    (htokens : treesOf false grafts = tokens.map .leaf) : grafts = tokens.map leaf := by
  induction grafts generalizing tokens with
  | nil =>
    obtain rfl := List.map_eq_nil_iff.1 htokens.symm
    rfl
  | cons graft rest ih =>
    obtain ⟨token, tokens, rfl, hgraft, hrest⟩ := List.map_eq_cons_iff.1 htokens.symm
    rw [List.map_cons, ← ih hfits.2 hrest.symm]
    cases graft with
    | leaf => rw [tree] at hgraft; rw [Tree.leaf.inj hgraft]
    | node | shed => cases hgraft
    | swap old =>
      obtain rfl : _ = old := hgraft
      cases hfits.1.1.2.1

/-! ## Stages of reading -/

/-- A stage of reading at first: grafts for the trees that are built, and tokens to come. -/
structure Shows (seated inHead : Bool) (grafts : List Graft) (e : List Segment) (s : Progress) :
    Prop where
  built_eq : treesOf false grafts = s.built
  rest_eq : row false e = s.rest
  fits : FitsOf seated inHead grafts s.rest
  steady : Steady (segmentsOf grafts ++ e)

/-- The same stage later. -/
def stage (grafts : List Graft) (e : List Segment) : Progress := ⟨treesOf true grafts, row true e⟩

namespace Shows

variable {s t : Progress} {front back : List Graft}

lemma eq_nil (h : Shows seated inHead grafts e ⟨[], r⟩) : grafts = [] :=
  List.map_eq_nil_iff.1 ((treesOf_eq_map _ _).symm.trans h.built_eq)

lemma row_eq (h : Shows seated inHead grafts e s) : row false (segmentsOf grafts ++ e) = s.tokens := by
  rw [row_append, h.fits.row_eq, h.built_eq, h.rest_eq, Progress.tokens]

lemma mono {seated' : Bool} (h : Shows seated inHead grafts e s)
    (hseat : seated = true → seated' = true) : Shows seated' inHead grafts e s :=
  ⟨h.built_eq, h.rest_eq, h.fits.mono hseat, h.steady⟩

lemma split {a b : List Tree} (h : Shows seated inHead grafts e ⟨a ++ b, r⟩) :
    ∃ front back, grafts = front ++ back ∧ Shows seated inHead back e ⟨b, r⟩ ∧
      Shows seated inHead front (segmentsOf back ++ e) ⟨a, Tree.leavesOf b ++ r⟩ := by
  obtain ⟨built_eq, rest_eq, fits, steady⟩ := h
  obtain ⟨front, back, rfl, hfront, hback⟩ :=
    List.map_eq_append_iff.1 ((treesOf_eq_map _ _).symm.trans built_eq)
  rw [← treesOf_eq_map] at hfront hback
  obtain ⟨hfitsFront, hfitsBack⟩ := fitsOf_append.1 fits
  rw [hback] at hfitsFront
  rw [segmentsOf_append, List.append_assoc] at steady
  refine ⟨front, back, rfl, ⟨hback, rest_eq, hfitsBack, steady.suffix (List.suffix_append _ _)⟩,
    hfront, ?_, hfitsFront, steady⟩
  rw [row_append, hfitsBack.row_eq, hback, rest_eq]

/-- What is built before a return clause and behind it. -/
structure OfShed (seated inHead : Bool) (kind : Kind) (front : List Graft) (lead : List Token)
    (clause : List Tree) (tail : List Graft) (e : List Segment) (t : Progress) : Prop where
  built_eq : t.built = treesOf false front ++
    ((lead.map .leaf ++ [.node .returnClause clause]) ++ treesOf false tail)
  parts : parts kind (treesOf false front) lead (treesOf false tail) t.rest = true
  front : Shows seated inHead front
    (.drop (lead ++ Tree.leavesOf clause) :: (segmentsOf tail ++ e))
    ⟨treesOf false front,
      lead ++ (Tree.leavesOf clause ++ (Tree.leavesOf (treesOf false tail) ++ t.rest))⟩
  tail : Shows seated inHead tail e ⟨treesOf false tail, t.rest⟩

/-- A node that is not a call, or not where one could be exchanged. -/
lemma exists_graft {kind : Kind} {trees : List Tree}
    (h : Shows seated inHead grafts e ⟨[.node kind trees], r⟩)
    (hkind : kind = .callExpr → seated = false) :
    (∃ inner, grafts = [.node kind inner] ∧
      Shows kind.seats (kind.heads inHead) inner e ⟨trees, r⟩) ∨
    ∃ front lead clause tail, grafts = [.shed kind front lead clause tail] ∧
      OfShed kind.seats (kind.heads inHead) kind front lead clause tail e ⟨trees, r⟩ := by
  obtain ⟨built_eq, rest_eq, fits, steady⟩ := h
  obtain ⟨graft, rfl, hgraft⟩ :=
    List.map_eq_singleton_iff.1 ((treesOf_eq_map _ _).symm.trans built_eq)
  cases graft with
  | leaf token => cases hgraft
  | node kind' inner =>
    obtain ⟨rfl, htrees⟩ := Tree.node.inj hgraft
    exact .inl ⟨inner, rfl, htrees, rest_eq, fits.1, by simpa using steady⟩
  | swap old =>
    obtain rfl : old = _ := hgraft
    obtain ⟨⟨hseated, -, hpart, -⟩, -⟩ := fits.1
    rw [hkind hpart] at hseated
    cases hseated
  | shed kind' front lead clause tail =>
    obtain ⟨rfl, htrees⟩ := Tree.node.inj hgraft
    obtain ⟨hfront, htail, hparts⟩ := fits.1
    have hsteady : Steady (segmentsOf front ++
        .drop (lead ++ Tree.leavesOf clause) :: (segmentsOf tail ++ e)) := by
      simpa [segments] using steady
    refine .inr ⟨front, lead, clause, tail, rfl, htrees.symm, hparts, ⟨rfl, ?_, hfront, hsteady⟩, rfl,
      rest_eq, htail, hsteady.suffix ((List.suffix_cons _ _).trans (List.suffix_append _ _))⟩
    simpa [Segment.tokens, htail.row_eq] using rest_eq

lemma exists_node {kind : Kind} {trees : List Tree}
    (h : Shows seated inHead grafts e ⟨[.node kind trees], r⟩)
    (hkind : kind = .callExpr → seated = false) (hsheds : kind.sheds = false) :
    ∃ inner, grafts = [.node kind inner] ∧
      Shows kind.seats (kind.heads inHead) inner e ⟨trees, r⟩ := by
  refine (h.exists_graft hkind).resolve_right ?_
  rintro ⟨front, lead, clause, tail, -, hshed⟩
  simpa [Grammar.parts, hsheds] using hshed.parts

lemma exists_before (tokens : List Token) (h : Shows seated inHead grafts e t)
    (hbuilt : t.built = s.built ++ tokens.map .leaf) (hrest : s.rest = tokens ++ t.rest) :
    ∃ grafts₀, grafts = grafts₀ ++ tokens.map leaf ∧
      Shows seated inHead grafts₀ (tokens.map .keep ++ e) s := by
  obtain ⟨built, rest⟩ := t
  obtain rfl : built = _ := hbuilt
  obtain ⟨front, back, rfl, hback, hfront⟩ := h.split
  obtain rfl := eq_map_leaf hback.fits hback.built_eq
  rw [Tree.leavesOf_map_leaf, ← hrest, segmentsOf_map_leaf] at hfront
  exact ⟨front, rfl, hfront⟩

lemma exists_of_flush (h : Shows seated inHead grafts e s.flush) (hloose : Loose e) :
    ∃ grafts₀ e₀, segmentsOf grafts₀ ++ e₀ = segmentsOf grafts ++ e ∧
      Shows seated inHead grafts₀ e₀ s ∧ Loose e₀ ∧ (Clear e → Clear e₀) ∧
        (stage grafts₀ e₀).flush = stage grafts e := by
  have hrest := h.rest_eq
  obtain ⟨front, rfl, h₀⟩ := h.exists_before (s := s) _ rfl (gap_append_pastGap _).symm
  have hgap : gap (row true e) = [] := by
    rw [← hloose.near.gap_eq, hrest]
    exact gap_pastGap _
  refine ⟨front, (gap s.rest).map .keep ++ e, by simp, h₀, hloose.append isTrivia_gap,
    fun hclear => hclear.append isTrivia_gap (h₀.steady.suffix (List.suffix_append _ _)), ?_⟩
  rw [stage, row_append, row_map_keep, flush_append isTrivia_gap hgap, stage, treesOf_append,
    treesOf_map_leaf]

end Shows

/-- What is asked of the row behind a phrase. -/
inductive Mode where
  | follows
  /-- Whatever comes, reading may begin where the phrase begins. It may also stop there, if this is
  `sure` or nothing is left out behind the phrase. -/
  | closes (sure : Bool)
  /-- A clause may be left out behind it, where no token of these kinds comes next. -/
  | mutes (kinds : List Kind)

namespace Mode

/-- The row behind a phrase is as asked. -/
def Ends : Mode → List Segment → Prop
  | .follows, e => Clear e
  | .closes _, _ => True
  | .mutes kinds, e => isFirm e = true ∧ (nextAny kinds).holds (row true e) = false

/-- What is known of the row before the phrase. -/
def Begins : Mode → List Segment → List Segment → Prop
  | .follows, _, e₀ | .mutes _, _, e₀ => Clear e₀
  | .closes sure, e, e₀ => Loose e₀ ∧ (sure = true ∨ isFirm e = true → Clear e₀)

variable {m : Mode} {e e₀ e₁ : List Segment}

lemma Begins.loose (h : m.Begins e e₀) : Loose e₀ := by
  cases m with
  | follows | mutes => exact Clear.loose h
  | closes => exact h.1

lemma Begins.imp (h : m.Begins e e₁) (hloose : Loose e₁ → Loose e₀) (hclear : Clear e₁ → Clear e₀) :
    m.Begins e e₀ := by
  cases m with
  | follows | mutes => exact hclear h
  | closes => exact ⟨hloose h.1, fun hsure => hclear (h.2 hsure)⟩

end Mode

/-- Whatever stage a phrase leads to at first, it leads to later, from a stage that shows where it
began. -/
def Leads (m : Mode) (phrase : Phrase Symbol) (s t : Progress) : Prop :=
  ∀ ⦃seated inHead grafts e⦄, phrase.suits seated inHead = true → Shows seated inHead grafts e t →
    m.Ends e → ∃ grafts₀ e₀, segmentsOf grafts₀ ++ e₀ = segmentsOf grafts ++ e ∧
      Shows seated inHead grafts₀ e₀ s ∧ m.Begins e e₀ ∧
        Runs swift phrase (stage grafts₀ e₀) (stage grafts e)

/-- This is so if reading may stop behind the phrase. -/
abbrev Follows : Phrase Symbol → Progress → Progress → Prop := Leads .follows

/-- This is so wherever the phrase ends. -/
abbrev Closes (sure : Bool) : Phrase Symbol → Progress → Progress → Prop := Leads (.closes sure)

variable {body first second : Phrase Symbol} {s t u : Progress} {sure sure' : Bool} {kind : Kind}
  {m m₁ m₂ : Mode}

/-! ## Tokens -/

/-- A token that is taken. -/
lemma closes_take {token : Token} {rest : List Token} (hs : s.flush.rest = token :: rest) :
    Closes false .take s ⟨s.flush.built ++ [.leaf token], rest⟩ := by
  rintro seated inHead grafts e - h -
  have htoken : token.isTrivia = false := isTrivia_of_pastGap hs
  obtain ⟨front, rfl, hopen⟩ := h.exists_before (s := s.flush) [token] rfl hs
  obtain ⟨grafts₀, e₀, hsame, h₀, hloose, hclear, hflush⟩ :=
    hopen.exists_of_flush (loose_cons htoken e)
  have hruns := Runs.take (g := swift) (stage grafts₀ e₀)
  rw [hflush] at hruns
  refine ⟨grafts₀, e₀, by simpa [segments] using hsame, h₀,
    ⟨hloose, fun hfirm => hclear ⟨rfl, ?_⟩⟩, ?_⟩
  · exact hopen.steady.2 _ (List.suffix_append _ _) (hfirm.resolve_left (by simp))
  · simpa [stage, Progress.shift, Segment.tokens, treesOf, tree] using hruns

lemma follows_take : Follows .take s s.flush.shift := by
  intro seated inHead grafts e hsuits h hclear
  cases hrest : s.flush.rest with
  | nil =>
    have hshift : s.flush.shift = s.flush := by rw [Progress.shift, hrest]
    rw [hshift] at h
    obtain ⟨grafts₀, e₀, hsame, h₀, -, hclear₀, hflush⟩ := h.exists_of_flush hclear.loose
    have hnil := hclear.view
    rw [h.rest_eq, hrest] at hnil
    have hruns := Runs.take (g := swift) (stage grafts₀ e₀)
    rw [hflush, Progress.shift, show (stage _ e).rest = [] from hnil.eq_nil] at hruns
    exact ⟨grafts₀, e₀, hsame, h₀, hclear₀ hclear, hruns⟩
  | cons token rest =>
    have hshift : s.flush.shift = ⟨s.flush.built ++ [.leaf token], rest⟩ := by
      rw [Progress.shift, hrest]
    rw [hshift] at h
    obtain ⟨grafts₀, e₀, hsame, h₀, ⟨-, hclear₀⟩, hruns⟩ := closes_take hrest hsuits h trivial
    exact ⟨grafts₀, e₀, hsame, h₀, hclear₀ (.inr hclear.firm), hruns⟩

/-! ## One after the other -/

namespace Leads

lemma seq (h₁ : Leads m₁ first s t) (h₂ : Leads m₂ second t u) (hends : ∀ e, m.Ends e → m₂.Ends e)
    (hbegins : ∀ e e₁, m₂.Begins e e₁ →
      m₁.Ends e₁ ∧ ∀ e₀, m₁.Begins e₁ e₀ → m.Begins e e₀) : Leads m (.seq first second) s u := by
  intro seated inHead grafts e hsuits h he
  obtain ⟨hfirst, hsecond⟩ := Bool.and_eq_true_iff.1 hsuits
  obtain ⟨grafts₁, e₁, hsame₁, h₁', he₁, hruns₁⟩ := h₂ hsecond h (hends e he)
  obtain ⟨hends₁, hbegins₁⟩ := hbegins e e₁ he₁
  obtain ⟨grafts₀, e₀, hsame₀, h₀, he₀, hruns₀⟩ := h₁ hfirst h₁' hends₁
  exact ⟨grafts₀, e₀, hsame₀.trans hsame₁, h₀, hbegins₁ e₀ he₀, .seq hruns₀ hruns₁⟩

lemma last (h : Leads m first s t) : Leads m (inOrder [first]) s t := by
  intro seated inHead grafts e hsuits ht he
  obtain ⟨grafts₀, e₀, hsame, h₀, he₀, hruns⟩ := h (Bool.and_eq_true_iff.1 hsuits).1 ht he
  exact ⟨grafts₀, e₀, hsame, h₀, he₀, .seq hruns (.skip _)⟩

lemma call {X : Symbol} (h : Leads m (swift X) s t) : Leads m (.call X) s t := by
  intro seated inHead grafts e hsuits ht he
  obtain ⟨grafts₀, e₀, hsame, h₀, he₀, hruns⟩ := h (suits_swift hsuits) ht he
  exact ⟨grafts₀, e₀, hsame, h₀, he₀, .call hruns⟩

/-- A question about the next token. -/
lemma choose {test : Test} {yes no : Phrase Symbol} {answer : Bool}
    (htest : test.holds s.rest = answer) (hnear : test.isNear = true)
    (h : Leads m (bif answer then yes else no) s t) : Leads m (.choose test yes no) s t := by
  intro seated inHead grafts e hsuits ht he
  obtain ⟨hyes, hno⟩ := Bool.and_eq_true_iff.1 hsuits
  obtain ⟨grafts₀, e₀, hsame, h₀, he₀, hruns⟩ := h (by cases answer <;> assumption) ht he
  have hsame' : test.holds (row true e₀) = answer := by
    rw [← he₀.loose.near.holds_eq hnear, h₀.rest_eq, htest]
  refine ⟨grafts₀, e₀, hsame, h₀, he₀, ?_⟩
  cases answer with
  | true => exact .yes hsame' hruns
  | false => exact .no hsame' hruns

lemma opt {test : Test} (htest : test.holds s.rest = true) (hnear : test.isNear = true)
    (h : Leads m body s t) : Leads m (opt test body) s t :=
  choose htest hnear h

lemma runs (h : Leads m body ⟨[], r⟩ t) (hsuits : body.suits seated inHead = true)
    (ht : Shows seated inHead grafts e t) (he : m.Ends e) :
    m.Begins e (segmentsOf grafts ++ e) ∧
      Runs swift body ⟨[], row true (segmentsOf grafts ++ e)⟩ (stage grafts e) := by
  obtain ⟨grafts₀, e₀, hsame, h₀, he₀, hruns⟩ := h hsuits ht he
  obtain rfl := h₀.eq_nil
  obtain rfl : e₀ = _ := hsame
  exact ⟨he₀, hruns⟩

end Leads

lemma Follows.closes_seq (h₁ : Follows first s t) (h₂ : Closes true second t u) :
    Closes true (.seq first second) s u :=
  h₁.seq h₂ (fun _ h => h) fun _ _ he₁ => ⟨he₁.2 (.inl rfl), fun _ hclear => ⟨hclear.loose, fun _ => hclear⟩⟩

lemma Closes.seq (h₁ : Closes sure first s t) (h₂ : Closes sure' second t u) :
    Closes true (.seq first second) s u :=
  Leads.seq h₁ h₂ (fun _ h => h) fun _ _ he₁ =>
    ⟨trivial, fun _ he₀ => ⟨he₀.1, fun _ => he₀.2 (.inr he₁.1.firm)⟩⟩

/-! ## Nodes -/

lemma flush_eq (h : Runs swift body s.flush.fresh t) :
    (⟨s.flush.built, Tree.leavesOf t.built ++ t.rest⟩ : Progress) = s.flush := by
  have hrest : Tree.leavesOf t.built ++ t.rest = s.flush.rest := h.tokens_eq
  rw [hrest]

/-- A node is built later if its body is. -/
lemma node_lift {front : List Graft} {graft : Graft} {inner : List Tree}
    (hfront : Shows seated inHead front (graft.segments ++ e) s.flush)
    (hgraft : graft.tree true = .node kind inner) (hbegins : m.Begins e (graft.segments ++ e))
    (hruns : Runs swift body ⟨[], row true (graft.segments ++ e)⟩ ⟨inner, row true e⟩) :
    ∃ grafts₀ e₀, segmentsOf grafts₀ ++ e₀ = segmentsOf (front ++ [graft]) ++ e ∧
      Shows seated inHead grafts₀ e₀ s ∧ m.Begins e e₀ ∧
        Runs swift (.node kind body) (stage grafts₀ e₀) (stage (front ++ [graft]) e) := by
  obtain ⟨front₀, e₀, hsame, h₀, hloose₀, hclear₀, hflush⟩ := hfront.exists_of_flush hbegins.loose
  refine ⟨front₀, e₀, by simpa using hsame, h₀, hbegins.imp (fun _ => hloose₀) hclear₀, ?_⟩
  rw [runs_node_iff, hflush]
  exact ⟨_, hruns, by simp [stage, treesOf, hgraft]⟩

/-- Later the body of a node does without the return clause. -/
def Shedding (m : Mode) (kind : Kind) (body : Phrase Symbol) (t : Progress) : Prop :=
  ∀ ⦃inHead front lead clause tail e⦄, body.suits kind.seats (kind.heads inHead) = true →
    Shows.OfShed kind.seats (kind.heads inHead) kind front lead clause tail e t → m.Ends e →
      m.Begins e ((shed kind front lead clause tail).segments ++ e) ∧
        Runs swift body ⟨[], row true ((shed kind front lead clause tail).segments ++ e)⟩
          (stage (front ++ tail) e)

lemma Leads.node_of_shedding (hshedding : Shedding m kind body t)
    (hbody : Runs swift body s.flush.fresh t) (h : Leads m body s.flush.fresh t) :
    Leads m (.node kind body) s ⟨s.flush.built ++ [.node kind t.built], t.rest⟩ := by
  intro seated inHead grafts e hsuits ht he
  obtain ⟨hkind, hsuits⟩ : kind ≠ .callExpr ∧ body.suits kind.seats (kind.heads inHead) = true := by
    simpa [Phrase.suits] using hsuits
  obtain ⟨front, back, rfl, hback, hfront⟩ := ht.split
  simp only [Tree.leavesOf_cons, Tree.leaves_node, Tree.leavesOf_nil, List.append_nil,
    flush_eq hbody] at hfront
  obtain ⟨inner, rfl, hinner⟩ | ⟨before, lead, clause, tail, rfl, hshed⟩ :=
    hback.exists_graft fun heq => absurd heq hkind
  · obtain ⟨hbegins, hruns⟩ := h.runs hsuits hinner he
    rw [segmentsOf_singleton] at hfront
    exact node_lift hfront rfl hbegins hruns
  · obtain ⟨hbegins, hruns⟩ := hshedding hsuits hshed he
    rw [segmentsOf_singleton] at hfront
    rw [stage, treesOf_append] at hruns
    exact node_lift hfront rfl hbegins hruns

lemma Leads.node (hsheds : kind.sheds = false) (hbody : Runs swift body s.flush.fresh t)
    (h : Leads m body s.flush.fresh t) :
    Leads m (.node kind body) s ⟨s.flush.built ++ [.node kind t.built], t.rest⟩ := by
  refine Leads.node_of_shedding (fun inHead front lead clause tail e _ hshed => ?_) hbody h
  simpa [parts, hsheds] using hshed.parts

/-- From a row with nothing built, a phrase that reads an operand and what goes on with it does so
later. -/
def Opens (phrase : Phrase Symbol) (t : Progress) : Prop :=
  ∀ ⦃inHead grafts e⦄, phrase.opens inHead = true → Shows true inHead grafts e t → Clear e →
    Clear (segmentsOf grafts ++ e) ∧
      Runs swift phrase ⟨[], row true (segmentsOf grafts ++ e)⟩ (stage grafts e)

lemma opens_of_eq_false {phrase : Phrase Symbol} (h : ∀ inHead, phrase.opens inHead = false) :
    Opens phrase t := by
  intro inHead grafts e hopens
  simp [h inHead] at hopens

lemma follows_mark (hbody : Runs swift body s.flush.fresh t) (h : Follows body s.flush.fresh t)
    (hopens : Opens body t) : Follows (.mark body) s ⟨s.flush.built ++ t.built, t.rest⟩ := by
  intro seated inHead grafts e hsuits ht hclear
  obtain ⟨front, inner, rfl, hinner, hfront⟩ := ht.split
  rw [flush_eq hbody] at hfront
  obtain ⟨hclear, hruns⟩ : Clear (segmentsOf inner ++ e) ∧
      Runs swift body ⟨[], row true (segmentsOf inner ++ e)⟩ (stage inner e) := by
    obtain hsuits | hsuits := Bool.or_eq_true_iff.1 hsuits
    · exact h.runs hsuits hinner hclear
    · exact hopens hsuits (hinner.mono fun _ => rfl) hclear
  obtain ⟨front₀, e₀, hsame, h₀, -, hclear₀, hflush⟩ := hfront.exists_of_flush hclear.loose
  refine ⟨front₀, e₀, by simpa using hsame, h₀, hclear₀ hclear, ?_⟩
  rw [runs_mark_iff, hflush]
  exact ⟨_, hruns, by simp [stage]⟩

/-- What all trees since the mark are put into. -/
lemma Shows.exists_of_wrap (hsuits : (Phrase.wrap kind body).suits seated inHead = true)
    (h : Shows seated inHead grafts e ⟨[.node kind t.built], t.rest⟩) :
    ∃ inner, grafts = [.node kind inner] ∧ body.suits kind.seats inHead = true ∧
      Shows kind.seats inHead inner e t ∧ (kind.seats = true → seated = true) := by
  simp only [Phrase.suits, Bool.and_eq_true, Bool.or_eq_true, bne_iff_ne, Bool.not_eq_true',
    beq_iff_eq] at hsuits
  obtain ⟨⟨⟨⟨hkind, hseats⟩, hheads⟩, hsheds⟩, hsuits⟩ := hsuits
  obtain ⟨inner, rfl, hinner⟩ := h.exists_node (fun heq => hkind.resolve_left (absurd heq)) hsheds
  rw [hheads] at hinner hsuits
  exact ⟨inner, rfl, hsuits, hinner, fun hseat => hseats.resolve_left (by simp [hseat])⟩

lemma Leads.wrap (kind : Kind) (h : Leads m body s t) :
    Leads m (.wrap kind body) s ⟨[.node kind t.built], t.rest⟩ := by
  intro seated inHead grafts e hsuits ht he
  obtain ⟨inner, rfl, hsuits, hinner, hseats⟩ := ht.exists_of_wrap hsuits
  obtain ⟨inner₀, e₀, hsame, h₀, he₀, hruns⟩ := h hsuits hinner he
  exact ⟨inner₀, e₀, by simpa using hsame, h₀.mono hseats, he₀, .wrap hruns⟩

end Graft

end Grammar

end SwiftTidy

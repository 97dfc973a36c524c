import SwiftTidy.Proofs.CallForms
import SwiftTidy.Proofs.Operands
import SwiftTidy.Proofs.Ranks

/-!
# The questions of the grammar

Most questions that the grammar asks are about the next token and the trivia before it; a few look
further. Two rows of tokens for which all answers agree are read in the same way, as far as can be
seen (`SameView`). `Phrase.Heeds` says which questions a phrase asks, and what stands in the nodes
that later modules take apart.
-/

namespace SwiftTidy.Grammar

open Phrase Test

namespace Test

/-- The questions of Swift that look further than to the next token. -/
def farTests : List Test :=
  [classModifier, exprStart, label, doubleLabel, .both (next .dot) (second .ident), memberHere,
   declaration, closureHead]

/-- Questions about the next token and the pause before it, questions that look further, and what
is made of these. -/
inductive Foreseen : Test → Prop where
  | sees (p : Kind → Bool) : Foreseen (.sees 0 p)
  | spelled (words : List String) : Foreseen (.spelled words)
  | spaced : Foreseen .spaced
  | broken : Foreseen .broken
  | far {test : Test} (h : test ∈ farTests) : Foreseen test
  | both {a b : Test} (ha : Foreseen a) (hb : Foreseen b) : Foreseen (.both a b)
  | either {a b : Test} (ha : Foreseen a) (hb : Foreseen b) : Foreseen (.either a b)
  | fails {a : Test} (ha : Foreseen a) : Foreseen (.fails a)

/-- A question about no more than the next token and the trivia before it. -/
def isNear : Test → Bool
  | .sees n _ => n == 0
  | .spelled _ | .spaced | .broken => true
  | .scans _ => false
  | .both a b | .either a b => a.isNear && b.isNear
  | .fails a => a.isNear

lemma Foreseen.of_isNear {test : Test} (h : test.isNear = true) : test.Foreseen := by
  induction test with
  | sees n p =>
    obtain rfl : n = 0 := by simpa [isNear] using h
    exact .sees p
  | spelled words => exact .spelled words
  | spaced => exact .spaced
  | broken => exact .broken
  | scans p => cases h
  | both a b iha ihb =>
    obtain ⟨ha, hb⟩ := Bool.and_eq_true_iff.1 h
    exact .both (iha ha) (ihb hb)
  | either a b iha ihb =>
    obtain ⟨ha, hb⟩ := Bool.and_eq_true_iff.1 h
    exact .either (iha ha) (ihb hb)
  | fails a ih => exact .fails (ih h)

end Test

/-! ## Two rows that look the same -/

/-- Two rows of tokens have the same trivia and the same token next. -/
structure Near (r r' : List Token) : Prop where
  gap_eq : gap r = gap r'
  next_eq : ahead? 0 r = ahead? 0 r'

/-- No question tells two rows of tokens apart, except that an arrow may have gone that was seen
from an effect before it. -/
structure SameView (r r' : List Token) : Prop extends Near r r' where
  far_eq : ∀ test ∈ farTests, test.holds r = test.holds r'
  arrow : arrowAhead.holds r = false → arrowAhead.holds r' = false

lemma sameView_iff {r r' : List Token} : SameView r r' ↔
    gap r = gap r' ∧ ahead? 0 r = ahead? 0 r' ∧ (∀ test ∈ farTests, test.holds r = test.holds r') ∧
      (arrowAhead.holds r = false → arrowAhead.holds r' = false) :=
  ⟨fun h => ⟨h.gap_eq, h.next_eq, h.far_eq, h.arrow⟩, fun h => ⟨⟨h.1, h.2.1⟩, h.2.2.1, h.2.2.2⟩⟩

instance (r r' : List Token) : Decidable (SameView r r') := decidable_of_iff' _ sameView_iff

section

variable {r r' lead : List Token} {token : Token}

lemma Near.holds_eq (h : Near r r') {test : Test} (htest : test.isNear = true) :
    test.holds r = test.holds r' := by
  induction test with
  | sees n p =>
    obtain rfl : n = 0 := by simpa [isNear] using htest
    rw [holds, holds, h.next_eq]
  | spelled words => rw [holds, holds, h.next_eq]
  | spaced | broken => rw [holds, holds, h.gap_eq]
  | scans p => cases htest
  | both a b iha ihb | either a b iha ihb =>
    obtain ⟨ha, hb⟩ := Bool.and_eq_true_iff.1 htest
    rw [holds, holds, iha ha, ihb hb]
  | fails a ih => rw [holds, holds, ih htest]

lemma near_append (hlead : ∀ token ∈ lead, token.isTrivia = true) (h : Near r r') :
    Near (lead ++ r) (lead ++ r') where
  gap_eq := by rw [gap_append hlead, gap_append hlead, h.gap_eq]
  next_eq := by
    induction lead with
    | nil => exact h.next_eq
    | cons first lead ih =>
      have hfirst := hlead first List.mem_cons_self
      simp only [List.cons_append, ahead?, hfirst, if_true]
      exact ih fun token htoken => hlead token (List.mem_cons_of_mem _ htoken)

lemma near_cons (htoken : token.isTrivia = false) (r r' : List Token) :
    Near (token :: r) (token :: r') where
  gap_eq := by rw [gap_cons htoken, gap_cons htoken]
  next_eq := by simp [ahead?, htoken]

namespace SameView

lemma holds_eq (h : SameView r r') {test : Test} (htest : test.Foreseen) :
    test.holds r = test.holds r' := by
  induction htest with
  | sees p | spelled words | spaced | broken => exact h.toNear.holds_eq rfl
  | far hfar => exact h.far_eq _ hfar
  | both _ _ iha ihb | either _ _ iha ihb => rw [holds, holds, iha, ihb]
  | fails _ ih => rw [holds, holds, ih]

lemma fails (h : SameView r r') {test : Test} {p : Prop} (htest : test.Foreseen ∨ test = arrowAhead ∧ p)
    (hr : test.holds r = false) : test.holds r' = false := by
  obtain htest | ⟨rfl, -⟩ := htest
  · rw [← h.holds_eq htest, hr]
  · exact h.arrow hr

lemma eq_nil (h : SameView [] r') : r' = [] := by
  rw [← gap_append_pastGap r', ← h.gap_eq, pastGap_eq_nil]
  · rfl
  · have hnone := h.next_eq
    rw [ahead?_eq_significant, ahead?_eq_significant, ← List.head?_eq_getElem?,
      ← List.head?_eq_getElem?] at hnone
    exact List.head?_eq_none_iff.1 hnone.symm

end SameView

/-- At a closing bracket no question looks further. -/
lemma holds_far_of_closer (hr : (nextAny closers).holds r = true) :
    ∀ test ∈ arrowAhead :: farTests, test.holds r = false := by
  rw [nextAny, holds_sees] at hr
  obtain ⟨token, htoken, hkind⟩ := (Option.any_eq_true _ _).1 hr
  obtain ⟨rest, hsignificant⟩ : ∃ rest, Token.significant r = token :: rest := by
    cases hall : Token.significant r with
    | nil => simp [hall] at htoken
    | cons first rest =>
      obtain rfl : first = token := by simpa [hall] using htoken
      exact ⟨rest, rfl⟩
  have hkinds : token.kind = .rparen ∨ token.kind = .rbracket ∨ token.kind = .rbrace := by
    simpa [closers] using hkind
  have hnames : Kind.isName .rparen = false ∧ Kind.isName .rbracket = false ∧
      Kind.isName .rbrace = false := by decide
  simp only [farTests, List.forall_mem_cons, List.not_mem_nil, IsEmpty.forall_iff, implies_true,
    and_true]
  rcases hkinds with h | h | h <;>
    simp [arrowAhead, classModifier, exprStart, label, doubleLabel, memberHere, declaration,
      closureHead, nextAny, next, nextName, operandKinds, primaryKinds, hsignificant, h,
      opensDeclaration, opensSignature, hnames, Kind.isDeclarationKeyword]

lemma Near.sameView (h : Near r r') (hr : (nextAny closers).holds r = true) : SameView r r' := by
  have hnear : (nextAny closers).holds r = (nextAny closers).holds r' := h.holds_eq rfl
  have hfirst := holds_far_of_closer hr
  have hlater := holds_far_of_closer (hnear ▸ hr)
  exact ⟨h, fun test htest => by
    rw [hfirst test (List.mem_cons_of_mem _ htest), hlater test (List.mem_cons_of_mem _ htest)],
    fun _ => hlater _ List.mem_cons_self⟩

end

/-! ## What phrases ask -/

/-- The arrow of a function type and what comes before and after it. -/
def arrowPhrase : Phrase Symbol :=
  wrap .functionType <| inOrder [call .effects, take, call .type]

/-- What stands in the signature of a function. -/
def functionBody : Phrase Symbol :=
  inOrder [call .parameterClause, call .effects, call .returnClause]

/-- What stands in the signature of a closure. -/
def closureBody : Phrase Symbol :=
  inOrder [call .attributeNodes, opt (next .lbracket) (call .group), closureParameters,
    call .effects, call .returnClause, accept .inKw]

/-- The questions of a phrase are those of the grammar, and its signatures and arguments are read
as such. -/
def Phrase.Heeds : Phrase Symbol → Prop
  | .skip | .take | .call _ => True
  | .seq first second => first.Heeds ∧ second.Heeds
  | .choose test yes no =>
    (test.Foreseen ∨ test = arrowAhead ∧ yes = arrowPhrase) ∧ yes.Heeds ∧ no.Heeds
  | .node kind body =>
    (match kind with
      | .functionSignature => body = functionBody
      | .closureSignature => body = closureBody
      | .argument => ∃ closing, body = argumentPhrase closing
      | _ => True) ∧ body.Heeds
  | .mark body => body.Heeds
  | .wrap kind body =>
    kind ∉ [.functionSignature, .closureSignature, .argument] ∧ body.Heeds

section

attribute [local simp] Foreseen.both Foreseen.either Foreseen.fails Heeds opt firstOf inOrder accept
  acceptName joinedGroup upTo callOf

private lemma foreseen_near : (∀ p, (Test.sees 0 p).Foreseen) ∧ (∀ kind, (next kind).Foreseen) ∧
    (∀ kinds, (nextAny kinds).Foreseen) ∧ (∀ words, (nextWord words).Foreseen) ∧
    (∀ kind, (joined kind).Foreseen) ∧ (∀ kind, (sameLine kind).Foreseen) ∧ Foreseen .spaced ∧
    Foreseen .broken ∧ someToken.Foreseen ∧ never.Foreseen ∧ nextName.Foreseen ∧
    typeStart.Foreseen ∧ variadic.Foreseen ∧ unwrapMark.Foreseen ∧ binaryOperator.Foreseen := by
  refine ⟨?_, ?_, ?_, ?_, ?_, ?_, ?_, ?_, ?_, ?_, ?_, ?_, ?_, ?_, ?_⟩ <;> intros <;>
    exact .of_isNear rfl

private lemma foreseen_far : classModifier.Foreseen ∧ exprStart.Foreseen ∧ label.Foreseen ∧
    doubleLabel.Foreseen ∧ (Test.both (next .dot) (second .ident)).Foreseen ∧
    (Test.both (next .dot) (.sees 1 fun kind => kind == .numberLiteral || kind.isName)).Foreseen ∧
    declaration.Foreseen ∧ closureHead.Foreseen := by
  have hfar {test : Test} (h : test ∈ farTests) : test.Foreseen := .far h
  refine ⟨hfar ?_, hfar ?_, hfar ?_, hfar ?_, hfar ?_, hfar ?_, hfar ?_, hfar ?_⟩ <;>
    simp [farTests, memberHere]

/-- The grammar asks no other questions. -/
lemma heeds_swift (X : Symbol) : (swift X).Heeds := by
  have hnear := foreseen_near
  have hfar := foreseen_far
  have htuple : (Test.either .label (.either .doubleLabel (.either .typeStart .variadic))).Foreseen :=
    .either hfar.2.2.1 (.either hfar.2.2.2.1 (.of_isNear rfl))
  cases X with
  | type => simp [swift, typePhrase, hnear, arrowAhead, arrowPhrase]
  | inGroup opening closing depth => cases depth <;> simp [swift, hnear]
  | statement => simp [swift, statementPhrase, hnear, hfar]
  | declaration => simp [swift, declarationPhrase, hnear, hfar]
  | signature => simp [swift, functionBody]
  | tupleElement => simp [swift, hnear, hfar, htuple]
  | exprSuffixes inCondition => simp [swift, exprSuffixPhrase, hnear]
  | suffixes inCondition => cases inCondition <;> simp [swift, suffixPhrase, hnear, hfar]
  | primary => simp [swift, primaryPhrase, hnear]
  | argumentItems closing =>
    have hclosing : ∃ other, nextAny [closing, .comma] = nextAny [other, .comma] := ⟨closing, rfl⟩
    simp [swift, argumentPhrase, hnear, hfar, hclosing]
  | closureSignature => simp [swift, closureBody, closureParameters, hnear]
  | _ => simp [swift, hnear, hfar]

end

end SwiftTidy.Grammar

import SwiftTidy.Proofs.Survey

/-!
# Reading Swift ends

The grammar of Swift has a plan: with sixteen open symbols for each token that is left, every procedure
comes to its end, and it makes the row of tokens shorter wherever its construct begins. Nearly all procedures
pass the survey. The others look further ahead than one token, at a whole row of modifiers or at the trivia
before the next token, and are argued for here one by one.
-/

namespace SwiftTidy.Grammar

open Phrase Test
open Token (significant)

/-! ## The guide -/

namespace Symbol

/-- The brackets that end a list of arguments. -/
def closesArguments (closing : Kind) : Bool := closing == .rparen || closing == .rbracket

/-- Kinds of the next token at which a symbol is sure to make the row of tokens shorter. -/
def sure : Symbol → Kind → Bool
  | .group => [Kind.lparen, .lbracket].contains
  | .modifiers | .modifierList | .attributeNodes => (· == .attributeName)
  | .type => [Kind.ident, .lparen, .lbracket, .attributeName].contains
  | .expr _ | .unary _ => operandKinds.contains
  | .postfixed _ | .primary => primaryKinds.contains
  | .argumentList closing | .arguments closing => fun _ => closesArguments closing
  | .error | .statement | .attributeNode | .function | .initializer | .subscript | .typeDecl | .variable
  | .importDecl | .typealias | .enumCase | .parameter | .simpleType | .genericArgs | .tupleType
  | .tupleElement | .collectionType | .arrayExpr | .closure | .returnStmt | .ifStmt | .guardStmt
  | .whileStmt | .forStmt | .switchStmt | .switchCase => fun _ => true
  | _ => fun _ => false

/-- Where a symbol is sure to make the row of tokens shorter. -/
def opening : Symbol → Test
  | .declaration => Test.declaration
  | .modifiers | .modifierList =>
    .either (next .attributeName) (.either (nextWord modifierWords) classModifier)
  | X => .sees 0 X.sure

/-- Whether a symbol is called only there. -/
def needsOpening : Symbol → Bool
  | .argumentItems closing => !closesArguments closing
  | .declaration | .modifiers | .attributeNode | .function | .initializer | .subscript | .typeDecl
  | .variable | .importDecl | .typealias | .enumCase | .parameter | .simpleType | .genericArgs
  | .tupleType | .tupleElement | .collectionType | .argumentList _ | .arguments _ | .arrayExpr
  | .closure | .returnStmt | .ifStmt | .guardStmt | .whileStmt | .forStmt | .switchStmt
  | .switchCase => true
  | _ => false

/-- The rank of a symbol: what it may call before it takes a token has a lower one. -/
def rank : Symbol → Nat
  | .statements _ | .switchBody => 12
  | .statement => 11
  | .declaration => 10
  | .argumentItems _ | .arrayItems | .conditions => 9
  | .expr _ => 8
  | .unary _ => 7
  | .postfixed _ => 6
  | .primary => 5
  | .tupleElements => 4
  | .tupleElement | .genericArgList | .parameters => 3
  | .type | .parameter | .modifiers | .suffixes _ | .signature | .closureSignature => 2
  | .modifierList | .attributeNodes | .argumentList _ | .bindings | .enumElements | .conditionPattern
  | .switchLabel | .genericParamList => 1
  | _ => 0

/-- Whether a symbol takes a significant token at its opening. An element of a tuple type with a space
before it may stop after the space. -/
def takes : Symbol → Bool
  | .tupleElement => false
  | _ => true

/-- Whether a symbol is known to do nothing elsewhere. -/
def idles : Symbol → Bool
  | .attributeNodes | .type => true
  | _ => false

end Symbol

/-- What the symbols of Swift promise. -/
def swiftGuide : Guide Symbol where
  opening := Symbol.opening
  sure := Symbol.sure
  needs := Symbol.needsOpening
  takes := Symbol.takes
  idles := Symbol.idles
  rank := Symbol.rank
  opening_of_sure X r h := by cases X <;> simp_all [Symbol.opening, Symbol.sure, next]
  rank_lt X := by cases X <;> simp [Symbol.rank]

/-- From the row `r` on, a phrase calls symbols where they are ready and less effort is left than before `r₀`,
and the symbol `X` that began at `r₀` ends as it promises. -/
def Fulfils (X : Symbol) (r₀ : List Token) (phrase : Phrase Symbol) (r : List Token) : Prop :=
  phrase.wp (fun Y r' => swiftGuide.ready Y r' ∧ swiftGuide.effort Y r' < swiftGuide.effort X r₀)
    swiftGuide.Advances (swiftGuide.Advances X r₀) r

variable {X : Symbol} {r : List Token}

lemma fulfils_of_survey (phrase : Phrase Symbol) {v : View} {r₀ : List Token}
    (h : swiftGuide.survey X phrase (fun w => w.moved && (w.took || !X.takes)) v = true) (hv : v.Describes r₀ r)
    (hidles : X.idles = false) : Fulfils X r₀ phrase r := by
  refine Guide.wp_of_survey phrase h hv ?_
  intro w r' hw hd
  simp only [Bool.and_eq_true, Bool.or_eq_true, Bool.not_eq_true'] at hw
  exact ⟨hd.length_le, hd.count_le, fun _ => hd.moved hw.1,
    fun htakes _ => hd.took (hw.2.resolve_right (by simp_all [swiftGuide])),
    fun hi => by simp_all [swiftGuide]⟩

/-! ## The procedures that pass the survey -/

deriving instance DecidableEq for Ending
deriving instance DecidableEq for Symbol

/-- Whether a survey of the procedure of a symbol tells enough. -/
def Symbol.isPlain : Symbol → Bool
  | .statement | .declaration | .modifiers | .modifierList | .tupleElement => false
  | _ => true

lemma opening_of_isPlain (h : X.isPlain = true) : X.opening = .sees 0 X.sure := by
  cases X <;> first | rfl | simp [Symbol.isPlain] at h

lemma closesArguments_eq_false_or (closing : Kind) :
    Symbol.closesArguments closing = false ∨ closing = .rparen ∨ closing = .rbracket := by
  simp only [Symbol.closesArguments, Bool.or_eq_false_iff, beq_eq_false_iff_ne, ne_eq]
  tauto

namespace Symbol

/-- All symbols but those of what stands in brackets. Lists of arguments end at a bracket. -/
def listed : List Symbol :=
  [.error, .group, .statement, .codeBlock, .returnStmt, .conditions, .conditionPattern, .ifStmt, .guardStmt, .whileStmt,
    .forStmt, .forPattern, .switchStmt, .switchBody, .switchCase, .switchLabel, .declaration, .modifiers, .modifierList,
    .attributeNode, .attributeNodes, .function, .operatorName, .initializer, .subscript, .typeDecl, .dottedName,
    .inheritedTypes, .variable, .bindings, .importDecl, .importPath, .typealias, .enumCase, .enumElements, .genericParams,
    .genericParamList, .signature, .effects, .returnClause, .parameterClause, .parameters, .parameter, .whereClause,
    .whereWords, .type, .typeSuffixes, .simpleType, .genericArgs, .genericArgList, .tupleType, .tupleElements,
    .tupleElement, .collectionType, .operatorRest, .primary, .arrayExpr, .arrayItems, .closure, .closureSignature,
    .closureNames] ++ [Ending.fileEnd, .brace, .caseLabel].map .statements ++
  ([true, false].flatMap fun inCondition =>
    [.expr inCondition, .exprSuffixes inCondition, .unary inCondition, .postfixed inCondition, .suffixes inCondition]) ++
  [Kind.rparen, .rbracket].flatMap fun closing => [.argumentList closing, .arguments closing, .argumentItems closing]

/-- A list of arguments that would end at something else. It never begins. -/
structure Barred (X : Symbol) : Prop where
  plain : X.isPlain = true
  needs : X.needsOpening = true
  sure : X.sure = fun _ => false
  form : ∃ closing, X = .argumentList closing ∨ X = .arguments closing ∨ X = .argumentItems closing

/-- What holds of the symbols one by one, of what stands in any brackets, and of all that never begins holds of all. -/
lemma forall_of_listed {P : Symbol → Prop} (hlisted : ∀ X ∈ listed, P X)
    (hgroup : ∀ opening closing depth, P (.inGroup opening closing depth)) (hbarred : ∀ X, X.Barred → P X) (X : Symbol) :
    P X := by
  cases X with
  | inGroup opening closing depth => exact hgroup opening closing depth
  | statements ending => cases ending <;> exact hlisted _ (by decide +kernel)
  | expr inCondition | exprSuffixes inCondition | unary inCondition | postfixed inCondition | suffixes inCondition =>
    cases inCondition <;> exact hlisted _ (by decide +kernel)
  | argumentList closing | arguments closing | argumentItems closing =>
    rcases closesArguments_eq_false_or closing with hc | rfl | rfl
    · exact hbarred _ ⟨rfl, by simp [needsOpening, hc], by simp [sure, hc], closing, by simp⟩
    · exact hlisted _ (by decide +kernel)
    · exact hlisted _ (by decide +kernel)
  | _ => exact hlisted _ (by decide +kernel)

end Symbol

lemma surveyed_inGroup (opening closing : Kind) (depth : Nat) :
    swiftGuide.surveyed (.inGroup opening closing depth) (swift (.inGroup opening closing depth)) = true := by
  cases depth <;>
    simp [swift, Guide.surveyed, Guide.survey, inOrder, firstOf, next, someToken, View.assume, View.take,
      View.blind, View.dead, View.within, swiftGuide, Symbol.needsOpening, Symbol.sure, Symbol.idles]

lemma surveyed_of_barred (h : X.Barred) (phrase : Phrase Symbol) : swiftGuide.surveyed X phrase = true := by
  have hidles : X.idles = false := by rcases h.form with ⟨closing, rfl | rfl | rfl⟩ <;> rfl
  simp [Guide.surveyed, swiftGuide, h.needs, h.sure, hidles, View.dead, View.within]

lemma surveyed_swift (h : X.isPlain = true) : swiftGuide.surveyed X (swift X) = true := by
  revert h
  exact Symbol.forall_of_listed (P := fun X => X.isPlain = true → swiftGuide.surveyed X (swift X) = true)
    (by decide +kernel) (fun _ _ _ _ => surveyed_inGroup _ _ _) (fun _ hbarred _ => surveyed_of_barred hbarred _) X

lemma fulfils_of_surveyed (phrase : Phrase Symbol) (h : swiftGuide.surveyed X phrase = true)
    (hX : X.opening = .sees 0 X.sure) (hready : swiftGuide.ready X r) : Fulfils X r phrase r :=
  Guide.wp_of_surveyed h hX hready

/-! ## Statements and declarations -/

lemma fulfils_statement (r : List Token) : Fulfils .statement r (swift .statement) r := by
  constructor
  · intro hdecl
    refine ⟨⟨fun _ => hdecl, ?_⟩, ?_⟩
    · simp [Guide.effort, swiftGuide, Symbol.rank]
    · intro r' h
      exact ⟨h.length_le, h.count_le, fun _ => h.length_lt hdecl, fun _ _ => h.count_lt rfl hdecl, nofun⟩
  · -- what is not a declaration is told by its next token
    intro _
    exact fulfils_of_surveyed _ rfl rfl nofun

/-- What opens a declaration is a keyword, unless it is a modifier. -/
lemma opening_modifiers (hdecl : Test.declaration.holds r = true)
    (hmod : (Test.either (.fails (.sees 0 Kind.isDeclarationKeyword)) classModifier).holds r = true) :
    (Symbol.opening .modifiers).holds r = true := by
  cases hr : significant r with
  | nil => simp [Test.declaration, hr, opensDeclaration] at hdecl
  | cons t rest =>
    simp only [Test.declaration, holds_scans, hr, opensDeclaration] at hdecl
    simp only [holds_either, holds_fails, holds_sees, hr, classModifier, next, holds_both] at hmod
    simp only [Symbol.opening, next, nextWord, classModifier, holds_either, holds_both, holds_sees,
      holds_spelled, hr]
    split at hdecl
    · simp_all
    · split at hdecl
      · simp_all
      · split at hdecl
        · simp_all [List.head?_eq_getElem?, Option.any_map]
        · simp_all

lemma fulfils_modifierList (r : List Token) : Fulfils .modifierList r (swift .modifierList) r := by
  have hv : (View.blind false false).Describes r r := .start r
  refine ⟨fun h₁ => ?_, fun h₁ => ⟨fun h₂ => ?_, fun h₂ => ⟨fun h₃ => ?_, fun h₃ => ?_⟩⟩⟩
  · exact fulfils_of_survey _ rfl (h₁ ▸ hv.assume (next .attributeName)) rfl
  · exact fulfils_of_survey _ rfl (h₂ ▸ hv.assume (nextWord modifierWords)) rfl
  · exact fulfils_of_survey _ rfl (h₃ ▸ hv.assume classModifier) rfl
  · have hclosed : (Symbol.opening .modifierList).holds r = false := by
      simp only [Symbol.opening, holds_either, h₁, h₂, h₃, Bool.or_self]
    exact ⟨le_rfl, le_rfl, fun ho => absurd ho (by simp [swiftGuide, hclosed]),
      fun _ ho => absurd ho (by simp [swiftGuide, hclosed]), nofun⟩

lemma fulfils_modifiers (r : List Token) : Fulfils .modifiers r (swift .modifiers) r := by
  have hle := length_pastGap_le r
  refine ⟨⟨nofun, ?_⟩, ?_⟩
  · simp only [Guide.effort, swiftGuide, Symbol.rank]
    omega
  · intro r' h
    have hopen : (Symbol.opening .modifierList).holds (pastGap r) = (Symbol.opening .modifiers).holds r := by
      simp [Symbol.opening, next, nextWord, classModifier]
    refine ⟨h.length_le.trans hle, by simpa using h.count_le, ?_, ?_, nofun⟩
    · intro ho
      exact (h.length_lt (hopen.trans ho)).trans_le hle
    · intro _ ho
      simpa using h.count_lt rfl (hopen.trans ho)

lemma fulfils_declaration (hready : Test.declaration.holds r = true) :
    Fulfils .declaration r (swift .declaration) r := by
  have hle := length_pastGap_le r
  have hv : (View.blind false false).Describes r (pastGap r) := (View.Describes.start r).pastGap
  refine ⟨fun hmod => ⟨⟨?_, ?_⟩, ?_⟩, fun hmod => ?_⟩
  · intro _
    exact opening_modifiers (by simpa [Test.declaration] using hready) hmod
  · simp only [Guide.effort, swiftGuide, Symbol.rank]
    omega
  · -- the modifiers have taken a token, so whatever follows them will do
    intro r' h
    have hopen : (swiftGuide.opening .modifiers).holds (pastGap r) = true :=
      opening_modifiers (by simpa [Test.declaration] using hready) hmod
    have hmoved : (View.blind true true).Describes r r' :=
      ⟨h.length_le.trans hle, by simpa using h.count_le, fun _ _ => rfl, fun _ => rfl,
        fun _ => (h.length_lt hopen).trans_le hle, fun _ => by simpa using h.count_lt rfl hopen⟩
    exact fulfils_of_survey _ rfl hmoved rfl
  · -- without modifiers the keyword comes next
    have hkeyword : (Test.sees 0 Kind.isDeclarationKeyword).holds (pastGap r) = true := by
      simp only [holds_either, holds_fails, Bool.or_eq_false_iff, Bool.not_eq_false'] at hmod
      exact hmod.1
    have hassume := hv.assume (.sees 0 Kind.isDeclarationKeyword)
    rw [hkeyword] at hassume
    exact fulfils_of_survey _ rfl hassume rfl

/-! ## Elements of tuple types -/

lemma length_pastGap_lt (h : Test.spaced.holds r = true) : (pastGap r).length < r.length := by
  have hsum := congrArg List.length (gap_append_pastGap r)
  have hgap : 0 < (gap r).length := by
    simpa [Test.holds, List.length_pos_iff] using h
  rw [List.length_append] at hsum
  omega

lemma pastGap_of_not_spaced (h : Test.spaced.holds r = false) : pastGap r = r := by
  have hgap : gap r = [] := by simpa [Test.holds] using h
  simpa [hgap] using gap_append_pastGap r

/-- The type of an element of a tuple type, and the mark of a variadic one. -/
def elementType : Phrase Symbol := inOrder [call .type, opt variadic take]

lemma fulfils_elementType (h : (Test.either typeStart variadic).holds r = true) :
    Fulfils .tupleElement r elementType r := by
  have hv := View.Describes.start r
  cases ht : typeStart.holds r with
  | true =>
    have hassume := hv.assume typeStart
    rw [ht] at hassume
    exact fulfils_of_survey _ rfl hassume rfl
  | false =>
    -- no type comes, so the mark does
    have hmark : variadic.holds r = true := by simpa [ht] using h
    refine ⟨⟨nofun, by simp [Guide.effort, swiftGuide, Symbol.rank]⟩, ?_⟩
    intro r' hr'
    obtain rfl := hr'.eq_of_idle rfl ht
    refine ⟨fun _ => ?_, fun hno => by simp [hmark] at hno⟩
    have hassume := hv.assume variadic
    rw [hmark] at hassume
    exact fulfils_of_survey take rfl hassume rfl

lemma fulfils_tupleElement (hready : someToken.holds r = true) : Fulfils .tupleElement r (swift .tupleElement) r := by
  have hv := View.Describes.start r
  refine ⟨fun htest => ?_, fun _ => ?_⟩
  · cases hspaced : Test.spaced.holds r with
    | true =>
      -- the space is passed over
      have hmoved : (View.blind true false).Describes r (pastGap r) :=
        ⟨length_pastGap_le r, by simp, fun _ _ => rfl, fun _ => rfl,
          fun _ => length_pastGap_lt hspaced, nofun⟩
      exact fulfils_of_survey
        (inOrder
          [firstOf [(label, inOrder [take, take]), (doubleLabel, inOrder [take, take, take])] skip,
           elementType])
        rfl hmoved rfl
    | false =>
      rw [holds_either, hspaced, Bool.false_or, holds_either] at htest
      change Phrase.wp _ _ _ _ (pastGap r)
      rw [pastGap_of_not_spaced hspaced]
      refine ⟨fun hlabel => ?_, fun hlabel => ⟨fun hdouble => ?_, fun hdouble => ?_⟩⟩
      · have hassume := hv.assume label
        rw [hlabel] at hassume
        exact fulfils_of_survey (inOrder [take, take, elementType]) rfl hassume rfl
      · have hassume := hv.assume doubleLabel
        rw [hdouble] at hassume
        exact fulfils_of_survey (inOrder [take, take, take, elementType]) rfl
          hassume rfl
      · rw [hlabel, Bool.false_or, holds_either, hdouble, Bool.false_or] at htest
        exact fulfils_elementType htest
  · have hassume := hv.pastGap.assume someToken
    have hsome : someToken.holds (pastGap r) = true := by simpa [someToken] using hready
    rw [hsome] at hassume
    exact fulfils_of_survey (call .error) rfl hassume rfl

/-! ## The plan -/

/-- Reading Swift ends: the plan for its grammar. -/
def swiftPlan : Plan swift where
  ready := swiftGuide.ready
  advances := swiftGuide.Advances
  effort := swiftGuide.effort
  sound X r hready := by
    cases hX : X.isPlain with
    | true => exact fulfils_of_surveyed (swift X) (surveyed_swift hX) (opening_of_isPlain hX) hready
    | false =>
      cases X with
      | statement => exact fulfils_statement r
      | declaration => exact fulfils_declaration (hready rfl)
      | modifiers => exact fulfils_modifiers r
      | modifierList => exact fulfils_modifierList r
      | tupleElement => exact fulfils_tupleElement (hready rfl)
      | _ => simp [Symbol.isPlain] at hX

end SwiftTidy.Grammar

import SwiftTidy.Proofs.SwiftShape
import SwiftTidy.Proofs.Unbounded

/-!
# The rounds of a loop

A symbol that stands for a repetition calls itself at the end of a round. Between two rounds a significant token is
taken, and whether this is so can be read off the procedures as the plan was (`Guide.paced`). There is one loop
where a round may pass over trivia only, that of the elements of a tuple type: an element that is missing
behind a space is built from the space alone. As no trivia is left then, the next round takes a token.

Together with the plan this says that reading Swift always makes progress (`reading_progresses`).
-/

namespace SwiftTidy.Grammar

open Phrase Test
open Token (significant)

variable {σ : Type}

namespace Phrase

variable {ok ok' : σ → List Token → Prop} {spec spec' : σ → List Token → List Token → Prop}
  {post post' : List Token → Prop}

lemma wp_mono (hok : ∀ X r, ok X r → ok' X r) (hspec : ∀ X r r', spec' X r r' → spec X r r')
    (hpost : ∀ r, post r → post' r) (phrase : Phrase σ) {r : List Token} (h : phrase.wp ok spec post r) :
    phrase.wp ok' spec' post' r := by
  induction phrase generalizing post post' r with
  | skip | take => exact hpost _ h
  | call X => exact ⟨hok X r h.1, fun r' hr' => hpost r' (h.2 r' (hspec X r r' hr'))⟩
  | seq first second ih₁ ih₂ => exact ih₁ (fun _ hmid => ih₂ hpost hmid) h
  | choose test yes no ih₁ ih₂ => exact ⟨fun ht => ih₁ hpost (h.1 ht), fun ht => ih₂ hpost (h.2 ht)⟩
  | node kind body ih | mark body ih | wrap kind body ih => exact ih hpost h

/-- Two preconditions together are a precondition of both. -/
lemma wp_and (phrase : Phrase σ) {r : List Token} (h : phrase.wp ok spec post r)
    (h' : phrase.wp ok' spec post' r) :
    phrase.wp (fun X r => ok X r ∧ ok' X r) spec (fun r => post r ∧ post' r) r := by
  induction phrase generalizing post post' r with
  | skip | take => exact ⟨h, h'⟩
  | call X => exact ⟨⟨h.1, h'.1⟩, fun r' hr' => ⟨h.2 r' hr', h'.2 r' hr'⟩⟩
  | seq first second ih₁ ih₂ =>
    exact wp_mono (fun _ _ => id) (fun _ _ _ => id) (fun _ hmid => ih₂ hmid.1 hmid.2) first (ih₁ h h')
  | choose test yes no ih₁ ih₂ => exact ⟨fun ht => ih₁ (h.1 ht) (h'.1 ht), fun ht => ih₂ (h.2 ht) (h'.2 ht)⟩
  | node kind body ih | mark body ih | wrap kind body ih => exact ih h h'

lemma Calls.rest_suffix {g : σ → Phrase σ} {phrase : Phrase σ} {s t : Progress} {Y : σ}
    (h : Calls g phrase s Y t) : t.rest <:+ s.rest := by
  induction h with
  | call => exact List.suffix_rfl
  | first _ ih | yes _ _ ih | no _ _ ih | wrap _ ih => exact ih
  | second hfirst _ ih => exact ih.trans hfirst.rest_suffix
  | node _ ih | mark _ ih => exact ih.trans (pastGap_suffix _)

end Phrase

variable {X Y : Symbol} {r r' : List Token} {s t : Progress}

lemma count_le_of_suffix (h : r' <:+ r) : (significant r').length ≤ (significant r).length :=
  (h.sublist.filter _).length_le

/-! ## Loops that take a token in every round -/

namespace Guide

variable (guide : Guide σ)

/-- Follows a phrase from a view and checks that a significant token is taken before each call in the loop. -/
def paced (inLoop : σ → Bool) : Phrase σ → (View → Bool) → View → Bool
  | .skip, post, v => post v
  | .take, post, v => post v.take
  | .call Y, post, v =>
    (!inLoop Y || v.took) &&
      if guide.idles Y then
        ((v.assume (guide.opening Y) true).dead || post (.blind true (v.took || guide.takes Y))) &&
          ((v.assume (guide.opening Y) false).dead || post (v.assume (guide.opening Y) false))
      else post (v.pass (guide.sure Y) (guide.takes Y))
  | .seq first second, post, v => paced inLoop first (paced inLoop second post) v
  | .choose test yes no, post, v =>
    ((v.assume test true).dead || paced inLoop yes post (v.assume test true)) &&
      ((v.assume test false).dead || paced inLoop no post (v.assume test false))
  | .node _ body, post, v | .mark body, post, v | .wrap _ body, post, v => paced inLoop body post v

variable {guide}

/-- A phrase that is paced takes a significant token before each call in the loop. -/
lemma wp_of_paced {inLoop : σ → Bool} {r₀ : List Token} (phrase : Phrase σ) {post : View → Bool}
    {left : List Token → Prop} {v : View} {r : List Token} (h : guide.paced inLoop phrase post v = true)
    (hv : v.Describes r₀ r) (hpost : ∀ w r', post w = true → w.Describes r₀ r' → left r') :
    phrase.wp (fun Y r' => inLoop Y = true → (significant r').length < (significant r₀).length)
      guide.Advances left r := by
  induction phrase generalizing post left v r with
  | skip => exact hpost v r h hv
  | take => exact hpost _ _ h hv.take
  | call Y =>
    simp only [paced, Bool.and_eq_true, Bool.or_eq_true, Bool.not_eq_true'] at h
    refine ⟨fun hloop => hv.took (h.1.resolve_left (by simp [hloop])), fun r' hr' => ?_⟩
    exact hr'.left_of_survey hv h.2 hpost
  | seq first second ih₁ ih₂ => exact ih₁ h hv fun w r' hw hd => ih₂ hw hd hpost
  | choose test yes no ih₁ ih₂ =>
    obtain ⟨hyes, hno⟩ := hv.branches h
    exact ⟨fun ht => ih₁ (hyes ht).2 (hyes ht).1 hpost, fun ht => ih₂ (hno ht).2 (hno ht).1 hpost⟩
  | node kind body ih => exact ih h hv.pastGap hpost
  | mark body ih => exact ih h hv.pastGap hpost
  | wrap kind body ih => exact ih h hv hpost

end Guide

/-- The loop that a symbol is a round of. The rounds inside brackets may differ in their depth. -/
def Symbol.loop : Symbol → Symbol
  | .inGroup opening closing _ => .inGroup opening closing 0
  | X => X

/-- Whether a token is taken before each further round of the loop that a symbol belongs to. -/
def Symbol.isPaced (X : Symbol) : Bool :=
  X.outset.dead || swiftGuide.paced (fun Y => Y.loop == X.loop) (swift X) (fun _ => true) X.outset

lemma isPaced_inGroup (opening closing : Kind) (depth : Nat) :
    Symbol.isPaced (.inGroup opening closing depth) = true := by
  cases depth <;>
    simp [Symbol.isPaced, Symbol.outset, Symbol.known, Symbol.isPlain, Symbol.needsOpening, swift, Guide.paced,
      inOrder, firstOf, next, someToken, View.assume, View.take, View.blind, View.dead, View.within, swiftGuide,
      Symbol.idles]

lemma isPaced_of_barred (h : X.Barred) : X.isPaced = true := by
  simp [Symbol.isPaced, Symbol.outset, Symbol.known, h.plain, h.needs, h.sure, Outline.before, View.dead, View.within]

lemma isPaced_swift (h : X ≠ .tupleElements) : X.isPaced = true := by
  revert h
  exact Symbol.forall_of_listed (P := fun X => X ≠ .tupleElements → X.isPaced = true) (by decide +kernel)
    (fun _ _ _ _ => isPaced_inGroup _ _ _) (fun _ hbarred _ => isPaced_of_barred hbarred) X

/-- A round of a loop takes a significant token, unless it is one over the elements of a tuple type. -/
lemma count_lt_of_round (hready : swiftGuide.ready X s.rest) (hX : X ≠ .tupleElements) (h : Opens swift (X, s) (Y, t))
    (hloop : Y.loop = X.loop) : (significant t.rest).length < (significant s.rest).length := by
  have houtset := describes_outset hready
  have hpaced := Bool.or_eq_true_iff.1 (isPaced_swift hX)
  have htakes : (swift X).wp
      (fun Y r => (Y.loop == X.loop) = true → (significant r).length < (significant s.rest).length)
      swiftGuide.Advances (fun _ => True) s.rest :=
    Guide.wp_of_paced (swift X) (hpaced.resolve_left (by simp [houtset.not_dead])) houtset fun _ _ _ _ => trivial
  have hw := wp_and (swift X) (swiftPlan.sound X s.rest hready) htakes
  exact (h.ok (fun _ _ _ hok => swiftPlan.advances_of_runs hok.1.1) hw).2 (by simpa using hloop)

/-! ## Elements of tuple types -/

/-- From one row to another a significant token is taken, or at least all the trivia before the next one. -/
def Passes (r r' : List Token) : Prop :=
  (significant r').length < (significant r).length ∨ gap r ≠ [] ∧ gap r' = []

lemma Passes.count_lt {r₁ r₂ r₃ : List Token} (h : Passes r₁ r₂) (h' : Passes r₂ r₃) (hsuffix : r₂ <:+ r₁)
    (hsuffix' : r₃ <:+ r₂) : (significant r₃).length < (significant r₁).length := by
  rcases h with hlt | ⟨-, hgap⟩
  · exact (count_le_of_suffix hsuffix').trans_lt hlt
  · rcases h' with hlt | ⟨hgap', -⟩
    · exact hlt.trans_le (count_le_of_suffix hsuffix)
    · exact absurd hgap hgap'

/-- From the row `r` on, a phrase calls symbols as an element of a tuple type that began at `r₀` may, and in the
end it has passed something. -/
def EndsPast (r₀ : List Token) (phrase : Phrase Symbol) (r : List Token) : Prop :=
  phrase.wp (fun Y r' => swiftGuide.ready Y r' ∧ swiftGuide.effort Y r' < swiftGuide.effort .tupleElement r₀)
    swiftGuide.Advances (Passes r₀) r

lemma endsPast_of_survey (phrase : Phrase Symbol) {v : View} {r₀ : List Token}
    (h : swiftGuide.survey .tupleElement phrase View.took v = true) (hv : v.Describes r₀ r) : EndsPast r₀ phrase r :=
  Guide.wp_of_survey phrase h hv fun _ _ hw hd => .inl (hd.took hw)

lemma endsPast_elementType (h : (Test.either .spaced (.either typeStart variadic)).holds r = true) :
    EndsPast r elementType (pastGap r) := by
  have hv := (View.Describes.start r).pastGap
  have hle := length_pastGap_le r
  cases ht : typeStart.holds (pastGap r) with
  | true =>
    have hassume := hv.assume typeStart
    rw [ht] at hassume
    exact endsPast_of_survey elementType rfl hassume
  | false =>
    refine ⟨⟨nofun, by simp only [Guide.effort, swiftGuide, Symbol.rank]; omega⟩, ?_⟩
    intro r' hr'
    obtain rfl := hr'.eq_of_idle rfl ht
    refine ⟨fun hmark => ?_, fun hmark => ?_⟩
    · have hassume := hv.assume variadic
      rw [hmark] at hassume
      exact endsPast_of_survey take rfl hassume
    · -- neither a type nor a mark comes, so it was for the space that an element was begun
      have ht' : typeStart.holds r = false := by simpa [typeStart, nextAny] using ht
      have hmark' : variadic.holds r = false := by simpa [variadic, next] using hmark
      rw [holds_either, holds_either, ht', hmark', Bool.or_false, Bool.or_false] at h
      exact .inr ⟨by simpa [Test.holds] using h, gap_pastGap r⟩

lemma endsPast_tupleElement (hready : someToken.holds r = true) : EndsPast r (swift .tupleElement) r := by
  have hv := (View.Describes.start r).pastGap
  refine ⟨fun htest => ?_, fun _ => ?_⟩
  · change Phrase.wp _ _ _ _ (pastGap r)
    refine ⟨fun hlabel => ?_, fun hlabel => ⟨fun hdouble => ?_, fun hdouble => ?_⟩⟩
    · have hassume := hv.assume label
      rw [hlabel] at hassume
      exact endsPast_of_survey (inOrder [take, take, elementType]) rfl hassume
    · have hassume := hv.assume doubleLabel
      rw [hdouble] at hassume
      exact endsPast_of_survey (inOrder [take, take, take, elementType]) rfl hassume
    · have hlabel' : label.holds r = false := by simpa [label, nextName, second] using hlabel
      have hdouble' : doubleLabel.holds r = false := by simpa [doubleLabel, nextName, second] using hdouble
      refine endsPast_elementType ?_
      simpa only [holds_either, hlabel', hdouble', Bool.false_or] using htest
  · have hsome : someToken.holds (pastGap r) = true := by simpa [someToken] using hready
    have hassume := hv.assume someToken
    rw [hsome] at hassume
    exact endsPast_of_survey (call .error) rfl hassume

/-- A round over the elements of a tuple type passes something. -/
lemma passes_of_round (h : Opens swift (.tupleElements, s) (Y, t)) (hloop : Y.loop = Symbol.tupleElements.loop) :
    Passes s.rest t.rest := by
  have hready : ∀ r, swiftGuide.ready .tupleElements r := fun r hneeds => by
    simp [swiftGuide, Symbol.needsOpening] at hneeds
  -- an element passes something, which is more than the plan says of it
  let spec : Symbol → List Token → List Token → Prop := fun X r r' =>
    swiftGuide.Advances X r r' ∧ (X = .tupleElement → Passes r r')
  have hspec : ∀ X s t, swiftGuide.ready X s.rest → Runs swift (.call X) s t → spec X s.rest t.rest := by
    intro X s t hX hruns
    refine ⟨swiftPlan.advances_of_runs hX hruns, ?_⟩
    rintro rfl
    cases hruns with
    | call hruns =>
      exact hruns.left (fun _ _ _ hok => swiftPlan.advances_of_runs hok.1) (endsPast_tupleElement (hX rfl))
  have hplan := wp_mono (fun _ _ hok => hok.1) (fun _ _ _ (h : spec _ _ _) => h.1) (fun _ _ => trivial)
    (swift .tupleElements) (swiftPlan.sound .tupleElements s.rest (hready s.rest))
  have hround : (swift .tupleElements).wp (fun Y r => Y.loop = Symbol.tupleElements.loop → Passes s.rest r) spec
      (fun _ => True) s.rest := by
    refine ⟨fun _ => trivial, fun _ => ⟨fun hcomma => ?_, fun _ => ⟨fun _ => ?_, fun _ => trivial⟩⟩⟩
    · refine ⟨fun _ => .inl ?_, fun _ _ => trivial⟩
      have hpos : 0 < (significant s.rest).length := by
        simp only [next, holds_sees, Option.any_eq_true] at hcomma
        obtain ⟨u, hu, -⟩ := hcomma
        exact List.length_pos_of_mem (List.mem_of_getElem? hu)
      simp only [significant_afterTake, List.length_tail]
      omega
    · refine ⟨fun hno => absurd hno (by simp [Symbol.loop]), fun r' hr' => ?_⟩
      exact ⟨fun _ => ⟨fun _ => hr'.2 rfl, fun _ _ => trivial⟩, fun _ => trivial⟩
  exact (h.ok (fun X s t hok => hspec X s t hok.1) (wp_and (swift .tupleElements) hplan hround)).2 hloop

/-! ## Progress -/

lemma passes_of_opens (hready : swiftGuide.ready X s.rest) (h : Opens swift (X, s) (Y, t)) (hloop : Y.loop = X.loop) :
    Passes s.rest t.rest := by
  by_cases hX : X = .tupleElements
  · subst hX
    exact passes_of_round h hloop
  · exact .inl (count_lt_of_round hready hX h hloop)

lemma Passes.length_lt (h : Passes r r') (hsuffix : r' <:+ r) : r'.length < r.length := by
  refine lt_of_le_of_ne hsuffix.length_le fun heq => ?_
  obtain rfl := hsuffix.eq_of_length heq
  rcases h with hlt | ⟨hgap, hgap'⟩
  · exact lt_irrefl _ hlt
  · exact hgap hgap'

lemma ready_statement (r : List Token) : swiftGuide.ready .statement r := fun hneeds => by
  simp [swiftGuide, Symbol.needsOpening] at hneeds

lemma ready_file (r : List Token) : swiftGuide.ready (.statements .fileEnd) r := fun hneeds => by
  simp [swiftGuide, Symbol.needsOpening] at hneeds

lemma exists_runs_statement (h : significant s.rest ≠ []) :
    ∃ t, Runs swift (.call .statement) s t ∧
      (significant t.rest).length < (significant s.rest).length := by
  obtain ⟨t, ht⟩ := swiftPlan.exists_runs (X := .statement) (ready_statement s.rest)
  refine ⟨t, ht, (swiftPlan.advances_of_runs (ready_statement s.rest) ht).count_lt rfl ?_⟩
  obtain ⟨token, rest, hrest⟩ := List.exists_cons_of_ne_nil h
  simp [swiftGuide, Symbol.opening, Symbol.sure, hrest]

end SwiftTidy.Grammar

namespace SwiftTidy

open Grammar Phrase
open Token (significant)

/-- Reading a text makes progress at every point. Wherever a significant token is left, a statement takes one. No
symbol goes backwards in the row of tokens. Whatever symbol has come to be open, from one round of its loop to the next
the row becomes shorter; a significant token is taken, except that the elements of a tuple type may take
two rounds for it. So a text is read to its end, without any bound on the symbols that are open, and this gives its
tree. -/
theorem reading_progresses :
    (∀ s : Progress, significant s.rest ≠ [] →
      ∃ t, Runs swift (.call .statement) s t ∧
        (significant t.rest).length < (significant s.rest).length) ∧
    (∀ (X : Symbol) (s t : Progress), Runs swift (.call X) s t → t.rest <:+ s.rest) ∧
    (∀ (tokens : List Token) (X Y : Symbol) (s t : Progress),
      Relation.ReflTransGen (Opens swift) (.statements .fileEnd, ⟨[], tokens⟩) (X, s) →
      Opens swift (X, s) (Y, t) → Y.loop = X.loop →
        t.rest.length < s.rest.length ∧
        (X ≠ .tupleElements → (significant t.rest).length < (significant s.rest).length) ∧
        ∀ (Z : Symbol) (u : Progress), Opens swift (Y, t) (Z, u) → Z.loop = Y.loop →
          (significant u.rest).length < (significant s.rest).length) ∧
    ∀ text : String, ∃ t, Runs swift (.call (.statements .fileEnd)) ⟨[], tokensOf text⟩ t ∧
      parse text = .node .sourceFile t.flush.built := by
  refine ⟨fun s hs => exists_runs_statement hs, fun X s t h => h.rest_suffix, ?_, ?_⟩
  · intro tokens X Y s t hreached hopens hloop
    have hready : swiftGuide.ready X s.rest :=
      swiftPlan.ready_of_reached (a := (.statements .fileEnd, ⟨[], tokens⟩)) (ready_file tokens) hreached
    have hpasses := passes_of_opens hready hopens hloop
    refine ⟨hpasses.length_lt hopens.rest_suffix, fun hX => count_lt_of_round hready hX hopens hloop, ?_⟩
    intro Z u hopens' hloop'
    have hpasses' := passes_of_opens (swiftPlan.ready_of_opens hready hopens).1 hopens' hloop'
    exact hpasses.count_lt hpasses' hopens.rest_suffix hopens'.rest_suffix
  · intro text
    exact ⟨_, swiftPlan.runs_derive (ready_file _) (effort_file (tokensOf text)), rfl⟩

/-- A bracket that closes nothing is a statement of its own. -/
theorem reading_progresses_stray_bracket :
    significant (tokensOf " ) x") ≠ [] ∧ ∃ t, Runs swift (.call .statement) ⟨[], tokensOf " ) x"⟩ t ∧
      (significant t.rest).length < (significant (tokensOf " ) x")).length := by
  have hne : significant (tokensOf " ) x") ≠ [] := by decide +kernel
  exact ⟨hne, reading_progresses.1 ⟨[], tokensOf " ) x"⟩ hne⟩

end SwiftTidy

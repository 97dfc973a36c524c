import SwiftTidy.Proofs.Plan

/-!
# Surveying a grammar

Whether a plan is sound can mostly be read off the grammar. A survey follows a phrase with what is known of
the next token and checks two things at each call: the symbol is called only where it is sure to find what it
needs, and it is of lower rank unless the row of tokens has become shorter before. A grammar whose procedures
pass the survey needs no further argument (`Guide.wp_of_surveyed`).
-/

namespace SwiftTidy

lemma Kind.mem_all (kind : Kind) : kind ∈ Kind.all := by
  cases kind <;> decide

namespace Grammar

open Token (significant)

variable {σ : Type}

/-! ## Views -/

/-- What is known of the coming tokens at a point of a phrase, compared with where the phrase began. -/
structure View where
  /-- The kinds that the next token may have. -/
  kinds : Kind → Bool
  /-- Whether there may be no next token. -/
  ends : Bool
  /-- Whether the row of tokens is known to be shorter. -/
  moved : Bool
  /-- Whether a significant token is known to be taken. -/
  took : Bool

namespace View

/-- Nothing is known of the next token. -/
def blind (moved took : Bool) : View := ⟨fun _ => true, true, moved, took⟩

/-- Whether there is a next token and its kind is one of those given. -/
def within (v : View) (kinds : Kind → Bool) : Bool :=
  !v.ends && Kind.all.all fun kind => !v.kinds kind || kinds kind

/-- Whether the point cannot be reached. -/
def dead (v : View) : Bool := v.within fun _ => false

/-- The view after the next token is taken. -/
def take (v : View) : View := blind (v.moved || !v.ends) (v.took || !v.ends)

/-- The view after a symbol that takes something at the given kinds, trivia at least. -/
def pass (v : View) (sure : Kind → Bool) (takes : Bool) : View :=
  blind (v.moved || v.within sure) (v.took || (v.within sure && takes))

/-- The view where one of two views is right. -/
def join (v w : View) : View :=
  ⟨fun kind => v.kinds kind || w.kinds kind, v.ends || w.ends, v.moved && w.moved, v.took && w.took⟩

/-- The view where a question has the given answer. -/
def assume (v : View) : Test → Bool → View
  | .sees 0 p, true => { v with kinds := fun kind => v.kinds kind && p kind, ends := false }
  | .sees 0 p, false => { v with kinds := fun kind => v.kinds kind && !p kind }
  | .sees (_ + 1) _, true => { v with ends := false }
  | .spelled _, true => { v with ends := false }
  | .both a b, true => (v.assume a true).assume b true
  | .both a b, false => (v.assume a false).join (v.assume b false)
  | .either a b, true => (v.assume a true).join (v.assume b true)
  | .either a b, false => (v.assume a false).assume b false
  | .fails a, answer => v.assume a !answer
  | _, _ => v

/-- A view is right about a row of tokens `r` at a point of a phrase that began before `r₀`. -/
structure Describes (v : View) (r₀ r : List Token) : Prop where
  length_le : r.length ≤ r₀.length
  count_le : (significant r).length ≤ (significant r₀).length
  kinds : ∀ t ∈ (significant r).head?, v.kinds t.kind = true
  ends : (significant r).head? = none → v.ends = true
  moved : v.moved = true → r.length < r₀.length
  took : v.took = true → (significant r).length < (significant r₀).length

namespace Describes

variable {v w : View} {r₀ r : List Token}

lemma start (r : List Token) : (View.blind false false).Describes r r :=
  ⟨le_rfl, le_rfl, fun _ _ => rfl, fun _ => rfl, nofun, nofun⟩

variable {kinds : Kind → Bool}

lemma exists_of_within (h : v.Describes r₀ r) (hw : v.within kinds = true) :
    ∃ t ∈ (significant r).head?, kinds t.kind = true := by
  simp only [within, Bool.and_eq_true, Bool.not_eq_true', List.all_eq_true, Bool.or_eq_true] at hw
  cases hr : (significant r).head? with
  | none => simp [h.ends hr] at hw
  | some t =>
    refine ⟨t, rfl, ?_⟩
    rcases hw.2 t.kind (Kind.mem_all _) with hk | hk
    · simp [h.kinds t hr] at hk
    · exact hk

lemma holds_of_within (h : v.Describes r₀ r) (hw : v.within kinds = true) : (Test.sees 0 kinds).holds r = true := by
  rw [Test.holds_sees, ← List.head?_eq_getElem?, Option.any_eq_true]
  exact h.exists_of_within hw

lemma not_dead (h : v.Describes r₀ r) : v.dead = false := by
  by_contra hd
  have hw : v.within (fun _ => false) = true := by simpa [dead] using hd
  obtain ⟨t, -, ht⟩ := h.exists_of_within hw
  simp at ht

lemma pastGap (h : v.Describes r₀ r) : v.Describes r₀ (pastGap r) where
  length_le := (length_pastGap_le r).trans h.length_le
  count_le := by simpa using h.count_le
  kinds := by simpa using h.kinds
  ends := by simpa using h.ends
  moved hm := (length_pastGap_le r).trans_lt (h.moved hm)
  took ht := by simpa using h.took ht

lemma take (h : v.Describes r₀ r) : v.take.Describes r₀ (afterTake r) := by
  have hcount : (significant (afterTake r)).length = (significant r).length - 1 := by simp
  have hends : v.ends = false → significant r ≠ [] := by
    intro he hr
    simp [h.ends (by simp [hr])] at he
  refine ⟨(length_afterTake_le r).trans h.length_le, ?_, fun _ _ => rfl, fun _ => rfl, ?_, ?_⟩
  · have := h.count_le
    omega
  · intro hm
    simp only [View.take, blind, Bool.or_eq_true, Bool.not_eq_true'] at hm
    rcases hm with hm | he
    · exact (length_afterTake_le r).trans_lt (h.moved hm)
    · exact (length_afterTake_lt (hends he)).trans_le h.length_le
  · intro ht
    simp only [View.take, blind, Bool.or_eq_true, Bool.not_eq_true'] at ht
    rcases ht with ht | he
    · have := h.took ht
      omega
    · have := List.length_pos_iff.2 (hends he)
      have := h.count_le
      omega

lemma join_left (h : v.Describes r₀ r) (w : View) : (v.join w).Describes r₀ r where
  length_le := h.length_le
  count_le := h.count_le
  kinds t ht := by simp [join, h.kinds t ht]
  ends hr := by simp [join, h.ends hr]
  moved hm := h.moved (by simp_all [join])
  took ht := h.took (by simp_all [join])

lemma join_right (h : w.Describes r₀ r) (v : View) : (v.join w).Describes r₀ r where
  length_le := h.length_le
  count_le := h.count_le
  kinds t ht := by simp [join, h.kinds t ht]
  ends hr := by simp [join, h.ends hr]
  moved hm := h.moved (by simp_all [join])
  took ht := h.took (by simp_all [join])

lemma restrict (h : v.Describes r₀ r) (hk : ∃ t ∈ (significant r).head?, v.kinds t.kind = true → kinds t.kind = true) :
    View.Describes { v with kinds := kinds, ends := false } r₀ r := by
  obtain ⟨t, ht, hkinds⟩ := hk
  refine ⟨h.length_le, h.count_le, ?_, ?_, h.moved, h.took⟩
  · intro u hu
    obtain rfl : t = u := Option.mem_unique ht hu
    exact hkinds (h.kinds t ht)
  · intro hr
    simp [hr] at ht

/-- What is known is still right once the answer to a question is taken into account. -/
lemma assume (h : v.Describes r₀ r) (test : Test) :
    (v.assume test (test.holds r)).Describes r₀ r := by
  induction test generalizing v with
  | sees n p =>
    cases n with
    | zero =>
      cases ha : (Test.sees 0 p).holds r with
      | true =>
        simp only [Test.holds_sees, ← List.head?_eq_getElem?, Option.any_eq_true] at ha
        obtain ⟨t, ht, hp⟩ := ha
        exact h.restrict ⟨t, ht, by simp [hp]⟩
      | false =>
        simp only [Test.holds_sees, ← List.head?_eq_getElem?, Option.any_eq_false] at ha
        refine ⟨h.length_le, h.count_le, ?_, h.ends, h.moved, h.took⟩
        intro t ht
        simp [View.assume, h.kinds t ht, ha t ht]
    | succ n =>
      cases ha : (Test.sees (n + 1) p).holds r with
      | true =>
        simp only [Test.holds_sees, Option.any_eq_true] at ha
        obtain ⟨t, ht, -⟩ := ha
        cases hr : significant r with
        | nil => simp [hr] at ht
        | cons u rest => exact h.restrict ⟨u, by simp [hr], id⟩
      | false => exact h
  | spelled words =>
    cases ha : (Test.spelled words).holds r with
    | true =>
      simp only [Test.holds_spelled, Option.any_eq_true] at ha
      obtain ⟨t, ht, -⟩ := ha
      exact h.restrict ⟨t, ht, id⟩
    | false => exact h
  | spaced => cases Test.spaced.holds r <;> exact h
  | broken => cases Test.broken.holds r <;> exact h
  | scans p => cases (Test.scans p).holds r <;> exact h
  | both a b iha ihb =>
    have ha := iha h
    have hb := ihb h
    rw [Test.holds_both]
    cases hva : a.holds r with
    | true =>
      rw [hva] at ha
      cases hvb : b.holds r with
      | true => simpa [View.assume, hvb] using ihb ha
      | false => exact (hvb ▸ hb).join_right _
    | false => exact (hva ▸ ha).join_left _
  | either a b iha ihb =>
    have ha := iha h
    have hb := ihb h
    rw [Test.holds_either]
    cases hva : a.holds r with
    | true => exact (hva ▸ ha).join_left _
    | false =>
      rw [hva] at ha
      cases hvb : b.holds r with
      | true => exact (hvb ▸ hb).join_right _
      | false => simpa [View.assume, hvb] using ihb ha
  | fails a ih => simpa [View.assume] using ih h

lemma branches (h : v.Describes r₀ r) {test : Test} {yes no : Bool}
    (hbranches : (((v.assume test true).dead || yes) && ((v.assume test false).dead || no)) = true) :
    (test.holds r = true → (v.assume test true).Describes r₀ r ∧ yes = true) ∧
      (test.holds r = false → (v.assume test false).Describes r₀ r ∧ no = true) := by
  rw [Bool.and_eq_true, Bool.or_eq_true, Bool.or_eq_true] at hbranches
  have hassume := h.assume test
  constructor
  · intro ht
    rw [ht] at hassume
    exact ⟨hassume, hbranches.1.resolve_left (by simp [hassume.not_dead])⟩
  · intro ht
    rw [ht] at hassume
    exact ⟨hassume, hbranches.2.resolve_left (by simp [hassume.not_dead])⟩

end Describes

end View

/-- Whether a phrase does nothing in a view. -/
def Phrase.rests : Phrase σ → View → Bool
  | .skip, _ => true
  | .seq first second, v => first.rests v && second.rests v
  | .choose test yes no, v =>
    ((v.assume test true).dead || yes.rests (v.assume test true)) &&
      ((v.assume test false).dead || no.rests (v.assume test false))
  | _, _ => false

/-- A phrase that does nothing in a view leaves the row of tokens as it is. -/
lemma Phrase.wp_of_rests {ok : σ → List Token → Prop} {spec : σ → List Token → List Token → Prop}
    (phrase : Phrase σ) {v : View} {r₀ r : List Token} (h : phrase.rests v = true)
    (hv : v.Describes r₀ r) {post : List Token → Prop} (hpost : post r) : phrase.wp ok spec post r := by
  induction phrase generalizing v post with
  | skip => exact hpost
  | seq first second ih₁ ih₂ =>
    simp only [rests, Bool.and_eq_true] at h
    exact ih₁ h.1 hv (ih₂ h.2 hv hpost)
  | choose test yes no ih₁ ih₂ =>
    obtain ⟨hyes, hno⟩ := hv.branches h
    exact ⟨fun ht => ih₁ (hyes ht).2 (hyes ht).1 hpost, fun ht => ih₂ (hno ht).2 (hno ht).1 hpost⟩
  | take | call | node | mark | wrap => simp [rests] at h

/-! ## Guides -/

/-- What is said of the symbols of a grammar before it is surveyed. -/
structure Guide (σ : Type) where
  /-- Where a symbol is sure to make the row of tokens shorter. -/
  opening : σ → Test
  /-- Kinds of the next token that put this beyond doubt. -/
  sure : σ → Kind → Bool
  /-- Whether a symbol is called only there. -/
  needs : σ → Bool
  /-- Whether a symbol takes a significant token there, and not only trivia. -/
  takes : σ → Bool
  /-- Whether a symbol does nothing anywhere else. -/
  idles : σ → Bool
  /-- Symbols called before the row becomes shorter have a lower rank. -/
  rank : σ → Nat
  opening_of_sure : ∀ X r, (Test.sees 0 (sure X)).holds r = true → (opening X).holds r = true
  rank_lt : ∀ X, rank X < 16

namespace Guide

variable (guide : Guide σ)

/-- How a symbol advances in a row of tokens. -/
structure Advances (X : σ) (r r' : List Token) : Prop where
  length_le : r'.length ≤ r.length
  count_le : (significant r').length ≤ (significant r).length
  length_lt : (guide.opening X).holds r = true → r'.length < r.length
  count_lt : guide.takes X = true → (guide.opening X).holds r = true →
    (significant r').length < (significant r).length
  eq_of_idle : guide.idles X = true → (guide.opening X).holds r = false → r' = r

/-- A symbol is called only where it is ready. -/
def ready (X : σ) (r : List Token) : Prop := guide.needs X = true → (guide.opening X).holds r = true

/-- A bound on the symbols that are open at a time. -/
def effort (X : σ) (r : List Token) : Nat := 16 * r.length + guide.rank X

/-- Follows a phrase of the symbol `X` from a view and checks every call and the views at the end. -/
def survey (X : σ) : Phrase σ → (View → Bool) → View → Bool
  | .skip, post, v => post v
  | .take, post, v => post v.take
  | .call Y, post, v =>
    (!guide.needs Y || v.within (guide.sure Y)) && (v.moved || decide (guide.rank Y < guide.rank X)) &&
      if guide.idles Y then
        ((v.assume (guide.opening Y) true).dead || post (.blind true (v.took || guide.takes Y))) &&
          ((v.assume (guide.opening Y) false).dead || post (v.assume (guide.opening Y) false))
      else post (v.pass (guide.sure Y) (guide.takes Y))
  | .seq first second, post, v => survey X first (survey X second post) v
  | .choose test yes no, post, v =>
    ((v.assume test true).dead || survey X yes post (v.assume test true)) &&
      ((v.assume test false).dead || survey X no post (v.assume test false))
  | .node _ body, post, v => survey X body post v
  | .mark body, post, v => survey X body post v
  | .wrap _ body, post, v => survey X body post v

/-- Whether a phrase may stand for the symbol `X`: its calls are in order wherever it is ready, it advances
where it should, and it does nothing where it should not. -/
def surveyed (X : σ) (phrase : Phrase σ) : Bool :=
  (guide.needs X || guide.survey X phrase (fun _ => true) (.blind false false)) &&
    (View.dead ⟨guide.sure X, false, false, false⟩ ||
      guide.survey X phrase (fun v => v.moved && (v.took || !guide.takes X))
        ⟨guide.sure X, false, false, false⟩) &&
    (!guide.idles X || phrase.rests ((View.blind false false).assume (guide.opening X) false))

variable {guide} {left : List Token → Prop} {post : View → Bool} {r₀ r r' : List Token} {v : View}

section

variable {X : σ} (h : guide.Advances X r r') (hv : v.Describes r₀ r)

include h hv

/-- What is known behind a symbol that was perhaps at its opening is right. -/
lemma Advances.behind {opened : Bool} (hopened : opened = true → (guide.opening X).holds r = true) :
    (View.blind (v.moved || opened) (v.took || opened && guide.takes X)).Describes r₀ r' := by
  refine ⟨h.length_le.trans hv.length_le, h.count_le.trans hv.count_le, fun _ _ => rfl, fun _ => rfl, ?_, ?_⟩
  · intro hm
    rcases Bool.or_eq_true_iff.1 hm with hm | ho
    · exact h.length_le.trans_lt (hv.moved hm)
    · exact (h.length_lt (hopened ho)).trans_le hv.length_le
  · intro ht
    simp only [View.blind, Bool.or_eq_true, Bool.and_eq_true] at ht
    rcases ht with ht | ⟨ho, htakes⟩
    · exact h.count_le.trans_lt (hv.took ht)
    · exact (h.count_lt htakes (hopened ho)).trans_le hv.count_le

lemma Advances.describes : (v.pass (guide.sure X) (guide.takes X)).Describes r₀ r' :=
  h.behind hv fun hw => guide.opening_of_sure X r (hv.holds_of_within hw)

/-- What a survey finds after a call holds there. -/
lemma Advances.left_of_survey
    (hend : (if guide.idles X then
        ((v.assume (guide.opening X) true).dead || post (.blind true (v.took || guide.takes X))) &&
          ((v.assume (guide.opening X) false).dead || post (v.assume (guide.opening X) false))
      else post (v.pass (guide.sure X) (guide.takes X))) = true)
    (hpost : ∀ w r', post w = true → w.Describes r₀ r' → left r') : left r' := by
  split at hend
  case isFalse => exact hpost _ r' hend (h.describes hv)
  case isTrue hidle =>
    obtain ⟨hyes, hno⟩ := hv.branches hend
    cases hopen : (guide.opening X).holds r with
    | true => exact hpost _ r' (hyes hopen).2 (by simpa using h.behind hv fun _ : true = true => hopen)
    | false =>
      obtain rfl := h.eq_of_idle hidle hopen
      exact hpost _ r' (hno hopen).2 (hno hopen).1

end

/-- A phrase that passes a survey calls symbols where they are ready and with less effort left. -/
lemma wp_of_survey {X : σ} (phrase : Phrase σ) (h : guide.survey X phrase post v = true) (hv : v.Describes r₀ r)
    (hpost : ∀ w r', post w = true → w.Describes r₀ r' → left r') :
    phrase.wp (fun Y r' => guide.ready Y r' ∧ guide.effort Y r' < guide.effort X r₀)
      guide.Advances left r := by
  induction phrase generalizing post left v r with
  | skip => exact hpost v r h hv
  | take => exact hpost _ _ h hv.take
  | call Y =>
    simp only [survey, Bool.and_eq_true, Bool.or_eq_true, Bool.not_eq_true', decide_eq_true_eq] at h
    obtain ⟨⟨hneeds, hrank⟩, hend⟩ := h
    refine ⟨⟨?_, ?_⟩, fun r' hr' => hr'.left_of_survey hv hend hpost⟩
    · intro hy
      exact guide.opening_of_sure Y r (hv.holds_of_within (hneeds.resolve_left (by simp [hy])))
    · have hle := hv.length_le
      have hlt := guide.rank_lt Y
      unfold effort
      rcases hrank with hm | hrank
      · have := hv.moved hm
        omega
      · omega
  | seq first second ih₁ ih₂ => exact ih₁ h hv fun w r' hw hd => ih₂ hw hd hpost
  | choose test yes no ih₁ ih₂ =>
    obtain ⟨hyes, hno⟩ := hv.branches h
    exact ⟨fun ht => ih₁ (hyes ht).2 (hyes ht).1 hpost, fun ht => ih₂ (hno ht).2 (hno ht).1 hpost⟩
  | node kind body ih => exact ih h hv.pastGap hpost
  | mark body ih => exact ih h hv.pastGap hpost
  | wrap kind body ih => exact ih h hv hpost

/-- A phrase that is surveyed satisfies what a plan asks for the symbol `X`. -/
theorem wp_of_surveyed {X : σ} {phrase : Phrase σ} (h : guide.surveyed X phrase = true)
    (hX : guide.opening X = .sees 0 (guide.sure X)) (hready : guide.ready X r) :
    phrase.wp (fun Y r' => guide.ready Y r' ∧ guide.effort Y r' < guide.effort X r)
      guide.Advances (guide.Advances X r) r := by
  simp only [surveyed, Bool.and_eq_true, Bool.or_eq_true] at h
  by_cases hopen : (guide.opening X).holds r = true
  · -- the symbol stands at its opening, so the second half of the survey applies
    have hnext := hopen
    rw [hX, Test.holds_sees, ← List.head?_eq_getElem?, Option.any_eq_true] at hnext
    obtain ⟨t, ht, hs⟩ := hnext
    have hv : View.Describes ⟨guide.sure X, false, false, false⟩ r r := by
      refine ⟨le_rfl, le_rfl, ?_, ?_, by simp, by simp⟩
      · intro u hu
        obtain rfl : t = u := Option.mem_unique ht hu
        exact hs
      · intro hr
        simp [hr] at ht
    refine wp_of_survey phrase (h.1.2.resolve_left (by simp [hv.not_dead])) hv ?_
    intro w r' hw hd
    simp only [Bool.and_eq_true, Bool.or_eq_true, Bool.not_eq_true'] at hw
    exact ⟨hd.length_le, hd.count_le, fun _ => hd.moved hw.1,
      fun htakes _ => hd.took (hw.2.resolve_right (by simp [htakes])), fun _ ho => by simp [hopen] at ho⟩
  · have hv := View.Describes.start r
    by_cases hidle : guide.idles X = true
    · -- it stands elsewhere and does nothing
      have hassume := hv.assume (guide.opening X)
      rw [Bool.eq_false_iff.2 hopen] at hassume
      refine phrase.wp_of_rests (h.2.resolve_left (by simp [hidle])) hassume ?_
      exact ⟨le_rfl, le_rfl, fun ho => absurd ho hopen, fun _ ho => absurd ho hopen, fun _ _ => rfl⟩
    · refine wp_of_survey phrase (h.1.1.resolve_left fun hneeds => hopen (hready hneeds)) hv ?_
      intro w r' _ hd
      exact ⟨hd.length_le, hd.count_le, fun ho => absurd ho hopen, fun _ ho => absurd ho hopen,
        fun hi => absurd hi hidle⟩

end Guide

end Grammar

end SwiftTidy

import SwiftTidy.Proofs.Lookahead

/-!
# Plans: why reading ends

A grammar is run with a bound on the symbols that are open at a time. A plan is the reason why the bound is
never met: it says for each symbol where it may be called, how much effort is left there, and how a call
advances in the row of tokens. A plan is sound when the procedure of each symbol only calls symbols at places
that they are ready for, with less effort left, and advances as the plan says.

Under a sound plan the result of a symbol does not depend on the bound, as soon as the bound exceeds the
effort (`Plan.derive_eq`). What one procedure keeps when the symbols it calls keep it, all of them keep
(`Plan.derive_induction`).
-/

namespace SwiftTidy.Grammar

variable {σ : Type}

namespace Progress

@[simp] lemma rest_flush (s : Progress) : s.flush.rest = pastGap s.rest := rfl

@[simp] lemma rest_shift (s : Progress) : s.shift.rest = s.rest.tail := by
  unfold shift
  split <;> simp_all

@[simp] lemma rest_fresh (s : Progress) : s.fresh.rest = s.rest := rfl

@[simp] lemma built_fresh (s : Progress) : s.fresh.built = [] := rfl

lemma exists_leaves_take (s : Progress) : ∃ tokens : List Token, s.flush.shift.built = s.built ++ tokens.map .leaf := by
  unfold shift
  split
  · exact ⟨gap s.rest, rfl⟩
  · next token _ _ => exact ⟨gap s.rest ++ [token], by simp [flush]⟩

end Progress

/-! ## Preconditions on the row of tokens -/

/-- What has to hold of the coming tokens so that a phrase calls symbols only where `ok` allows it and leaves
tokens with `post`, when a symbol turns a row of tokens into another one only as `spec` allows. -/
def Phrase.wp (ok : σ → List Token → Prop) (spec : σ → List Token → List Token → Prop) :
    Phrase σ → (List Token → Prop) → List Token → Prop
  | .skip, post, r => post r
  | .take, post, r => post (afterTake r)
  | .call X, post, r => ok X r ∧ ∀ r', spec X r r' → post r'
  | .seq first second, post, r => first.wp ok spec (second.wp ok spec post) r
  | .choose test yes no, post, r =>
    (test.holds r = true → yes.wp ok spec post r) ∧ (test.holds r = false → no.wp ok spec post r)
  | .node _ body, post, r => body.wp ok spec post (pastGap r)
  | .mark body, post, r => body.wp ok spec post (pastGap r)
  | .wrap _ body, post, r => body.wp ok spec post r

variable {post : Progress → Prop} {s : Progress}

/-- A phrase does the same for two ways of calling symbols that agree where it calls them, and leaves the
tokens that its precondition promises. -/
lemma Phrase.run_congr {ok : σ → List Token → Prop} {spec : σ → List Token → List Token → Prop}
    {call₁ call₂ : σ → Progress → Progress}
    (hcall : ∀ X s, ok X s.rest → call₁ X s = call₂ X s ∧ spec X s.rest (call₁ X s).rest) (phrase : Phrase σ)
    {post : List Token → Prop} (h : phrase.wp ok spec post s.rest) :
    phrase.run call₁ s = phrase.run call₂ s ∧ post (phrase.run call₁ s).rest := by
  induction phrase generalizing post s with
  | skip => exact ⟨rfl, h⟩
  | take => exact ⟨rfl, by simpa [run, wp, afterTake] using h⟩
  | call X =>
    obtain ⟨hok, hpost⟩ := h
    obtain ⟨heq, hspec⟩ := hcall X s hok
    exact ⟨heq, hpost _ hspec⟩
  | seq first second ih₁ ih₂ =>
    obtain ⟨heq, hmid⟩ := ih₁ h
    obtain ⟨heq', hpost⟩ := ih₂ hmid
    refine ⟨?_, hpost⟩
    rw [run, run, ← heq]
    exact heq'
  | choose test yes no ih₁ ih₂ =>
    rw [run, run]
    by_cases ht : test.holds s.rest = true
    · simpa only [if_pos ht] using ih₁ (h.1 ht)
    · simpa only [if_neg ht] using ih₂ (h.2 (by simpa using ht))
  | node kind body ih =>
    obtain ⟨heq, hpost⟩ := ih (s := s.flush.fresh) h
    simp only [run, ← heq, true_and]
    exact hpost
  | mark body ih =>
    obtain ⟨heq, hpost⟩ := ih (s := s.flush.fresh) h
    simp only [run, ← heq, true_and]
    exact hpost
  | wrap kind body ih =>
    obtain ⟨heq, hpost⟩ := ih h
    simp only [run, ← heq, true_and]
    exact hpost

/-! ## Preconditions on the trees built -/

/-- What has to hold before a phrase so that `post` holds after it, when a symbol leads on only as `keeps`
allows. -/
def Phrase.wlp (keeps : σ → Progress → Progress → Prop) :
    Phrase σ → (Progress → Prop) → Progress → Prop
  | .skip, post, s => post s
  | .take, post, s => post s.flush.shift
  | .call X, post, s => ∀ t, keeps X s t → post t
  | .seq first second, post, s => first.wlp keeps (second.wlp keeps post) s
  | .choose test yes no, post, s =>
    (test.holds s.rest = true → yes.wlp keeps post s) ∧
      (test.holds s.rest = false → no.wlp keeps post s)
  | .node kind body, post, s =>
    body.wlp keeps (fun t => post ⟨s.flush.built ++ [.node kind t.built], t.rest⟩) s.flush.fresh
  | .mark body, post, s =>
    body.wlp keeps (fun t => post ⟨s.flush.built ++ t.built, t.rest⟩) s.flush.fresh
  | .wrap kind body, post, s => body.wlp keeps (fun t => post ⟨[.node kind t.built], t.rest⟩) s

/-- What a precondition promises holds after a phrase, if the symbols keep to `keeps` where it calls them. -/
lemma Phrase.wlp_run {ok : σ → List Token → Prop} {spec : σ → List Token → List Token → Prop}
    {keeps : σ → Progress → Progress → Prop} {call : σ → Progress → Progress}
    (hcall : ∀ X s, ok X s.rest → keeps X s (call X s) ∧ spec X s.rest (call X s).rest) (phrase : Phrase σ)
    {left : List Token → Prop} (hw : phrase.wp ok spec left s.rest) (h : phrase.wlp keeps post s) :
    post (phrase.run call s) ∧ left (phrase.run call s).rest := by
  induction phrase generalizing left post s with
  | skip => exact ⟨h, hw⟩
  | take => exact ⟨h, by simpa [run, wp, afterTake] using hw⟩
  | call X =>
    obtain ⟨hok, hleft⟩ := hw
    obtain ⟨hkeeps, hspec⟩ := hcall X s hok
    exact ⟨h _ hkeeps, hleft _ hspec⟩
  | seq first second ih₁ ih₂ =>
    obtain ⟨hmid, hmidw⟩ := ih₁ hw h
    exact ih₂ hmidw hmid
  | choose test yes no ih₁ ih₂ =>
    rw [run]
    by_cases ht : test.holds s.rest = true
    · simpa only [if_pos ht] using ih₁ (hw.1 ht) (h.1 ht)
    · simpa only [if_neg ht] using ih₂ (hw.2 (by simpa using ht)) (h.2 (by simpa using ht))
  | node kind body ih => exact ih (s := s.flush.fresh) hw h
  | mark body ih => exact ih (s := s.flush.fresh) hw h
  | wrap kind body ih => exact ih hw h

lemma Phrase.wlp_of_forall {keeps : σ → Progress → Progress → Prop} (phrase : Phrase σ) (h : ∀ t, post t) (s : Progress) :
    phrase.wlp keeps post s := by
  induction phrase generalizing post s with
  | skip | take => exact h _
  | call X => exact fun t _ => h t
  | seq first second ih₁ ih₂ => exact ih₁ (ih₂ h) s
  | choose test yes no ih₁ ih₂ => exact ⟨fun _ => ih₁ h s, fun _ => ih₂ h s⟩
  | node kind body ih | mark body ih | wrap kind body ih => exact ih (fun _ => h _) _

/-! ## Plans -/

/-- A reason why the procedures of a grammar come to an end. -/
structure Plan (g : σ → Phrase σ) where
  /-- Whether a symbol may be called before a row of tokens. -/
  ready : σ → List Token → Prop
  /-- How a symbol may turn a row of tokens into another one. -/
  advances : σ → List Token → List Token → Prop
  /-- A bound on the symbols that are open at a time from such a call on. -/
  effort : σ → List Token → Nat
  /-- Each procedure calls symbols where they are ready and less effort is left, and advances as it should. -/
  sound : ∀ X r, ready X r →
    (g X).wp (fun Y r' => ready Y r' ∧ effort Y r' < effort X r) advances (advances X r) r

namespace Plan

variable {g : σ → Phrase σ} (plan : Plan g) {n : Nat} {s : Progress}

/-- The result of a symbol is the same for every bound above the effort, and it advances as planned. -/
theorem derive_eq {m : Nat} {X : σ} (hready : plan.ready X s.rest) (hm : plan.effort X s.rest < m)
    (hn : plan.effort X s.rest < n) :
    derive g m X s = derive g n X s ∧ plan.advances X s.rest (derive g m X s).rest := by
  induction m generalizing n X s with
  | zero => omega
  | succ m ih =>
    obtain ⟨n, rfl⟩ : ∃ k, n = k + 1 := ⟨n - 1, by omega⟩
    have hcall : ∀ Y t, plan.ready Y t.rest ∧ plan.effort Y t.rest < plan.effort X s.rest →
        derive g m Y t = derive g n Y t ∧ plan.advances Y t.rest (derive g m Y t).rest := by
      intro Y t hok
      exact ih hok.1 (by omega) (by omega)
    exact Phrase.run_congr hcall (g X) (plan.sound X s.rest hready)

/-- A relation holds between what stands before and after each symbol, if it does for a symbol as soon as it
does for the symbols that its procedure calls. -/
theorem derive_induction (keeps : σ → Progress → Progress → Prop) (step : ∀ X s, plan.ready X s.rest →
      (g X).wlp (fun Y t u => plan.ready Y t.rest ∧ plan.advances Y t.rest u.rest ∧ keeps Y t u)
        (keeps X s) s) {X : σ} (hready : plan.ready X s.rest) (hn : plan.effort X s.rest < n) :
    keeps X s (derive g n X s) := by
  induction n generalizing X s with
  | zero => omega
  | succ n ih =>
    have hcall : ∀ Y t, plan.ready Y t.rest ∧ plan.effort Y t.rest < plan.effort X s.rest →
        (plan.ready Y t.rest ∧ plan.advances Y t.rest (derive g n Y t).rest ∧
          keeps Y t (derive g n Y t)) ∧ plan.advances Y t.rest (derive g n Y t).rest := by
      intro Y t hok
      have hlt : plan.effort Y t.rest < n := by omega
      have hadv := (plan.derive_eq hok.1 hlt hlt).2
      exact ⟨⟨hok.1, hadv, ih hok.1 hlt⟩, hadv⟩
    exact (Phrase.wlp_run hcall (g X) (plan.sound X s.rest hready) (step X s hready)).1

end Plan

end SwiftTidy.Grammar

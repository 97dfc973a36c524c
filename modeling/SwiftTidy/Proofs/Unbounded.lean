import SwiftTidy.Proofs.Plan
import Mathlib.Logic.Relation

/-!
# Reading without a bound

The procedures of a grammar are run with a bound on the symbols that are open at a time. Here is what they do
without one: a phrase runs from one stage of reading to another (`Phrase.Runs`), and on its way it comes to calls
of symbols (`Phrase.Calls`). No run ever goes backwards in the row of tokens. A run that has no end is not there at
all, and a plan says that there is one for each symbol where it is ready (`Plan.runs_derive`).
-/

namespace SwiftTidy.Grammar

variable {σ : Type}

namespace Phrase

/-- From one stage of reading a phrase leads to another, where each symbol that it calls does so too. -/
inductive Runs (g : σ → Phrase σ) : Phrase σ → Progress → Progress → Prop where
  | skip (s : Progress) : Runs g .skip s s
  | take (s : Progress) : Runs g .take s s.flush.shift
  | call {X : σ} {s t : Progress} (h : Runs g (g X) s t) : Runs g (.call X) s t
  | seq {first second : Phrase σ} {s t u : Progress} (h₁ : Runs g first s t) (h₂ : Runs g second t u) :
      Runs g (.seq first second) s u
  | yes {test : Test} {yes no : Phrase σ} {s t : Progress} (htest : test.holds s.rest = true)
      (h : Runs g yes s t) : Runs g (.choose test yes no) s t
  | no {test : Test} {yes no : Phrase σ} {s t : Progress} (htest : test.holds s.rest = false)
      (h : Runs g no s t) : Runs g (.choose test yes no) s t
  | node {kind : Kind} {body : Phrase σ} {s t : Progress} (h : Runs g body s.flush.fresh t) :
      Runs g (.node kind body) s ⟨s.flush.built ++ [.node kind t.built], t.rest⟩
  | mark {body : Phrase σ} {s t : Progress} (h : Runs g body s.flush.fresh t) :
      Runs g (.mark body) s ⟨s.flush.built ++ t.built, t.rest⟩
  | wrap {kind : Kind} {body : Phrase σ} {s t : Progress} (h : Runs g body s t) :
      Runs g (.wrap kind body) s ⟨[.node kind t.built], t.rest⟩

/-- From a stage of reading a phrase comes to call a symbol at another stage. Calls that the symbol makes in its
turn do not count. -/
inductive Calls (g : σ → Phrase σ) : Phrase σ → Progress → σ → Progress → Prop where
  | call (X : σ) (s : Progress) : Calls g (.call X) s X s
  | first {first second : Phrase σ} {s t : Progress} {Y : σ} (h : Calls g first s Y t) :
      Calls g (.seq first second) s Y t
  | second {first second : Phrase σ} {s m t : Progress} {Y : σ} (hfirst : Runs g first s m)
      (h : Calls g second m Y t) : Calls g (.seq first second) s Y t
  | yes {test : Test} {yes no : Phrase σ} {s t : Progress} {Y : σ} (htest : test.holds s.rest = true)
      (h : Calls g yes s Y t) : Calls g (.choose test yes no) s Y t
  | no {test : Test} {yes no : Phrase σ} {s t : Progress} {Y : σ} (htest : test.holds s.rest = false)
      (h : Calls g no s Y t) : Calls g (.choose test yes no) s Y t
  | node {kind : Kind} {body : Phrase σ} {s t : Progress} {Y : σ} (h : Calls g body s.flush.fresh Y t) :
      Calls g (.node kind body) s Y t
  | mark {body : Phrase σ} {s t : Progress} {Y : σ} (h : Calls g body s.flush.fresh Y t) :
      Calls g (.mark body) s Y t
  | wrap {kind : Kind} {body : Phrase σ} {s t : Progress} {Y : σ} (h : Calls g body s Y t) :
      Calls g (.wrap kind body) s Y t

namespace Runs

variable {g : σ → Phrase σ} {phrase : Phrase σ} {s t u : Progress}

lemma unique (h : Runs g phrase s t) (h' : Runs g phrase s u) : t = u := by
  induction h generalizing u with
  | skip | take => cases h'; rfl
  | call _ ih => cases h' with | call h => exact ih h
  | seq _ _ ih₁ ih₂ =>
    cases h' with
    | seq h₁ h₂ =>
      obtain rfl := ih₁ h₁
      exact ih₂ h₂
  | yes htest _ ih =>
    cases h' with
    | yes _ h => exact ih h
    | no hno _ => simp [htest] at hno
  | no htest _ ih =>
    cases h' with
    | yes hyes _ => simp [htest] at hyes
    | no _ h => exact ih h
  | node _ ih => cases h' with | node h => rw [ih h]
  | mark _ ih => cases h' with | mark h => rw [ih h]
  | wrap _ ih => cases h' with | wrap h => rw [ih h]

lemma rest_suffix (h : Runs g phrase s t) : t.rest <:+ s.rest := by
  induction h with
  | skip => exact List.suffix_rfl
  | take s => simpa [afterTake] using afterTake_suffix s.rest
  | call _ ih | yes _ _ ih | no _ _ ih | wrap _ ih => exact ih
  | seq _ _ ih₁ ih₂ => exact ih₂.trans ih₁
  | node _ ih | mark _ ih => exact ih.trans (pastGap_suffix _)

lemma left {ok : σ → List Token → Prop} {spec : σ → List Token → List Token → Prop}
    (hspec : ∀ X s t, ok X s.rest → Runs g (.call X) s t → spec X s.rest t.rest) (h : Runs g phrase s t)
    {post : List Token → Prop} (hw : phrase.wp ok spec post s.rest) : post t.rest := by
  induction h generalizing post with
  | skip => exact hw
  | take s => simpa [wp, afterTake] using hw
  | call h _ => exact hw.2 _ (hspec _ _ _ hw.1 (.call h))
  | seq _ _ ih₁ ih₂ => exact ih₂ (ih₁ hw)
  | yes htest _ ih => exact ih (hw.1 htest)
  | no htest _ ih => exact ih (hw.2 htest)
  | node _ ih | mark _ ih | wrap _ ih => exact ih hw

end Runs

lemma Calls.ok {g : σ → Phrase σ} {ok : σ → List Token → Prop} {spec : σ → List Token → List Token → Prop}
    (hspec : ∀ X s t, ok X s.rest → Runs g (.call X) s t → spec X s.rest t.rest) {phrase : Phrase σ}
    {s t : Progress} {Y : σ} (h : Calls g phrase s Y t) {post : List Token → Prop}
    (hw : phrase.wp ok spec post s.rest) : ok Y t.rest := by
  induction h generalizing post with
  | call X s => exact hw.1
  | first _ ih => exact ih hw
  | second hfirst _ ih => exact ih (hfirst.left hspec hw)
  | yes htest _ ih => exact ih (hw.1 htest)
  | no htest _ ih => exact ih (hw.2 htest)
  | node _ ih | mark _ ih | wrap _ ih => exact ih hw

/-- What a phrase does under a bound it does without one, if that is so for the symbols where it calls them. -/
lemma runs_run {g : σ → Phrase σ} {ok : σ → List Token → Prop} {spec : σ → List Token → List Token → Prop}
    {call : σ → Progress → Progress}
    (hcall : ∀ X s, ok X s.rest → Runs g (.call X) s (call X s) ∧ spec X s.rest (call X s).rest)
    (phrase : Phrase σ) {post : List Token → Prop} {s : Progress} (hw : phrase.wp ok spec post s.rest) :
    Runs g phrase s (phrase.run call s) := by
  have hspec : ∀ X s t, ok X s.rest → Runs g (.call X) s t → spec X s.rest t.rest := by
    intro X s t hok h
    obtain ⟨hruns, hspec⟩ := hcall X s hok
    rwa [h.unique hruns]
  induction phrase generalizing post s with
  | skip => exact .skip s
  | take => exact .take s
  | call X => exact (hcall X s hw.1).1
  | seq first second ih₁ ih₂ => exact .seq (ih₁ hw) (ih₂ ((ih₁ hw).left hspec hw))
  | choose test yes no ih₁ ih₂ =>
    rw [run]
    by_cases htest : test.holds s.rest = true
    · rw [if_pos htest]
      exact .yes htest (ih₁ (hw.1 htest))
    · rw [if_neg htest]
      have htest : test.holds s.rest = false := by simpa using htest
      exact .no htest (ih₂ (hw.2 htest))
  | node kind body ih => exact .node (ih (s := s.flush.fresh) hw)
  | mark body ih => exact .mark (ih (s := s.flush.fresh) hw)
  | wrap kind body ih => exact .wrap (ih hw)

end Phrase

open Phrase

/-- A symbol that is being read opens another one. -/
def Opens (g : σ → Phrase σ) (a b : σ × Progress) : Prop := Calls g (g a.1) a.2 b.1 b.2

namespace Plan

variable {g : σ → Phrase σ} (plan : Plan g) {X Y : σ} {s t : Progress}

section

variable (hready : plan.ready X s.rest)

include hready

/-- Where a symbol is ready, its procedure comes to an end, and what it comes to is what a bound above the effort
gives. -/
theorem runs_derive {n : Nat} (hn : plan.effort X s.rest < n) : Runs g (.call X) s (derive g n X s) := by
  induction n generalizing X s with
  | zero => omega
  | succ n ih =>
    have hcall : ∀ Y t, plan.ready Y t.rest ∧ plan.effort Y t.rest < plan.effort X s.rest →
        Runs g (.call Y) t (derive g n Y t) ∧ plan.advances Y t.rest (derive g n Y t).rest := by
      intro Y t hok
      have hlt : plan.effort Y t.rest < n := by omega
      exact ⟨ih hok.1 hlt, (plan.derive_eq hok.1 hlt hlt).2⟩
    exact .call (runs_run hcall (g X) (plan.sound X s.rest hready))

lemma exists_runs : ∃ t, Runs g (.call X) s t :=
  ⟨_, plan.runs_derive hready (Nat.lt_succ_self _)⟩

lemma advances_of_runs (h : Runs g (.call X) s t) : plan.advances X s.rest t.rest := by
  have hlt := Nat.lt_succ_self (plan.effort X s.rest)
  rw [h.unique (plan.runs_derive hready hlt)]
  exact (plan.derive_eq hready hlt hlt).2

lemma ready_of_opens (h : Opens g (X, s) (Y, t)) : plan.ready Y t.rest ∧ plan.effort Y t.rest < plan.effort X s.rest :=
  h.ok (fun _ _ _ hok => plan.advances_of_runs hok.1) (plan.sound X s.rest hready)

end

lemma ready_of_reached {a b : σ × Progress} (hready : plan.ready a.1 a.2.rest)
    (h : Relation.ReflTransGen (Opens g) a b) : plan.ready b.1 b.2.rest := by
  induction h with
  | refl => exact hready
  | tail _ hopens ih => exact (plan.ready_of_opens ih hopens).1

end Plan

end SwiftTidy.Grammar

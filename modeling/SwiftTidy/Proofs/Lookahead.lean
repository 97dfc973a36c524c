import SwiftTidy.Grammar.Swift
import Mathlib.Data.List.Infix
import Mathlib.Order.Basic

/-!
# Looking past trivia

A grammar asks about the coming tokens that are not trivia. Everything it can learn from a row of tokens,
apart from whether trivia stands right before the next one, is in the row of its significant tokens. This
file says what the questions mean there, and what taking a token and passing over trivia do to both rows.
-/

namespace SwiftTidy

/-- The tokens of a row that are not trivia. -/
def Token.significant (tokens : List Token) : List Token :=
  tokens.filter fun token => !token.isTrivia

namespace Grammar

open Token (significant)

/-- The tokens that are left once the next one is taken, with the trivia before it. -/
def afterTake (r : List Token) : List Token := (pastGap r).tail

lemma ahead?_eq_significant (n : Nat) (r : List Token) : ahead? n r = (significant r)[n]? := by
  induction r generalizing n with
  | nil => simp [ahead?, significant]
  | cons t r ih =>
    unfold ahead?
    by_cases h : t.isTrivia
    · simpa [h, significant] using ih n
    · cases n with
      | zero => simp [h, significant]
      | succ n => simpa [h, significant] using ih n

/-! ## What is left -/

section

variable (r : List Token)

lemma pastGap_suffix : pastGap r <:+ r := List.dropWhile_suffix _

lemma afterTake_suffix : afterTake r <:+ r :=
  (List.tail_suffix _).trans (pastGap_suffix r)

@[simp] lemma significant_pastGap : significant (pastGap r) = significant r := by
  induction r with
  | nil => rfl
  | cons t r ih => by_cases h : t.isTrivia <;> simp_all [pastGap, significant]

@[simp] lemma significant_afterTake : significant (afterTake r) = (significant r).tail := by
  induction r with
  | nil => rfl
  | cons t r ih => by_cases h : t.isTrivia <;> simp_all [afterTake, pastGap, significant]

@[simp] lemma gap_pastGap : gap (pastGap r) = [] := by
  unfold gap pastGap
  induction r with
  | nil => rfl
  | cons t r ih => by_cases h : t.isTrivia <;> simp_all

@[simp] lemma pastGap_pastGap : pastGap (pastGap r) = pastGap r := by
  simpa using gap_append_pastGap (pastGap r)

lemma length_pastGap_le : (pastGap r).length ≤ r.length :=
  (pastGap_suffix r).length_le

lemma length_afterTake_le : (afterTake r).length ≤ r.length :=
  (afterTake_suffix r).length_le

end

lemma length_afterTake_lt {r : List Token} (h : significant r ≠ []) :
    (afterTake r).length < r.length := by
  have hne : pastGap r ≠ [] := by
    intro hr
    rw [← significant_pastGap, hr] at h
    exact h rfl
  have hpos := List.length_pos_iff.2 hne
  have hle := length_pastGap_le r
  rw [afterTake, List.length_tail]
  omega

/-! ## What the questions mean -/

namespace Test

@[simp] lemma holds_sees (n : Nat) (p : Kind → Bool) (r : List Token) :
    (sees n p).holds r = ((significant r)[n]?).any fun t => p t.kind := by
  simp [holds, ahead?_eq_significant]

@[simp] lemma holds_spelled (words : List String) (r : List Token) :
    (spelled words).holds r = (significant r).head?.any fun t => words.contains t.text := by
  simp [holds, ahead?_eq_significant, List.head?_eq_getElem?]

@[simp] lemma holds_scans (p : List Token → Bool) (r : List Token) :
    (scans p).holds r = p (significant r) := rfl

@[simp] lemma holds_both (a b : Test) (r : List Token) :
    (both a b).holds r = (a.holds r && b.holds r) := rfl

@[simp] lemma holds_either (a b : Test) (r : List Token) :
    (either a b).holds r = (a.holds r || b.holds r) := rfl

@[simp] lemma holds_fails (a : Test) (r : List Token) : (fails a).holds r = !a.holds r := rfl

end Test

end Grammar

end SwiftTidy

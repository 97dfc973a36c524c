import SwiftTidy.Linter
import SwiftTidy.Proofs.Offsets
import SwiftTidy.Proofs.Sites
import SwiftTidy.Rules.Builtin

/-!
# A report is a merge

Each rule of a linter finds its violations on its own, and the report merges these rows by their offsets. As each row is
in the order of its offsets already, the merge takes nothing out of its order: what is left of a report when only one
rule is looked at is what this rule finds alone (`Linter.reportedBy_eq`), whatever the other rules are.

Two sites may be reported at one offset although their anchors differ, since an offset past the end counts as the end.
They are still in order there, as the anchors were put in order before (`Rule.pairwise_offset_detect`).
-/

namespace SwiftTidy

lemma Rule.pairwise_offset_detect (rule : Rule) (source : Source) (regions : List Region) :
    (rule.detect source regions).Pairwise fun a b => a.position.offset ≤ b.position.offset := by
  rw [Rule.detect, List.pairwise_map]
  refine (pairwise_anchor_sites rule source.tree regions).imp fun {a b} h => ?_
  simp only [Rule.violation, Lines.offset_position]
  omega

namespace Linter

/-! ## The order of a report -/

lemma reportsBefore_iff {a b : Nat × Violation} :
    reportsBefore a b = true ↔
      a.2.position.offset < b.2.position.offset ∨ a.2.position.offset = b.2.position.offset ∧ a.1 ≤ b.1 := by
  simp [reportsBefore]

lemma reportsBefore_trans (a b c : Nat × Violation) (hab : reportsBefore a b = true)
    (hbc : reportsBefore b c = true) : reportsBefore a c = true := by
  rw [reportsBefore_iff] at *
  omega

lemma reportsBefore_total (a b : Nat × Violation) : (reportsBefore a b || reportsBefore b a) = true := by
  rw [Bool.or_eq_true, reportsBefore_iff, reportsBefore_iff]
  omega

/-! ## Rows of single rules -/

/-- What the rules find, rule after rule, each violation with the number of its rule. The first rule has number
`start`. -/
def found (source : Source) (start : Nat) (rules : List ActiveRule) : List (Nat × Violation) :=
  (rules.zipIdx start).flatMap fun (active, i) =>
    (violationsOf active source (Regions.resolve source)).map fun violation => (i, violation)

/-- The violations of a report in order, each with the number of the rule that it comes from. -/
def ranked (linter : Linter) (source : Source) : List (Nat × Violation) :=
  (found source 0 linter.rules).mergeSort reportsBefore

/-- The violations of a report that come from one rule, in the order of the report. -/
def reportedBy (linter : Linter) (source : Source) (i : Nat) : List Violation :=
  ((linter.ranked source).filter fun entry => entry.1 == i).map Prod.snd

lemma violations_lint (linter : Linter) (source : Source) :
    (linter.lint source).violations = (linter.ranked source).map Prod.snd := rfl

lemma pairwise_ranked (linter : Linter) (source : Source) :
    (linter.ranked source).Pairwise fun a b => reportsBefore a b = true :=
  List.pairwise_mergeSort reportsBefore_trans reportsBefore_total _

lemma pairwise_offset_violationsOf (active : ActiveRule) (source : Source) (regions : Regions) :
    (violationsOf active source regions).Pairwise fun a b => a.position.offset ≤ b.position.offset := by
  rw [violationsOf, List.pairwise_map]
  exact active.rule.pairwise_offset_detect source _

/-- Among what all rules find, the violations with the number of one rule are those that it finds. -/
lemma filter_found (source : Source) (start i : Nat) (rules : List ActiveRule) :
    (found source start rules).filter (fun entry => entry.1 == start + i) =
      (rules[i]?.elim [] fun active => violationsOf active source (Regions.resolve source)).map (start + i, ·) := by
  induction rules generalizing start i with
  | nil => simp [found]
  | cons active rules ih =>
    have hcons : found source start (active :: rules) =
        (violationsOf active source (Regions.resolve source)).map (start, ·) ++ found source (start + 1) rules := by
      simp [found, List.zipIdx_cons]
    have hown : ((violationsOf active source (Regions.resolve source)).map (start, ·)).filter
        (fun entry => entry.1 == start + i) =
        if i = 0 then (violationsOf active source (Regions.resolve source)).map (start, ·) else [] := by
      rw [List.filter_map]
      cases i <;> simp [Function.comp_def]
    rw [hcons, List.filter_append, hown]
    cases i with
    | zero =>
      have hlater : (found source (start + 1) rules).filter (fun entry => entry.1 == start + 0) = [] := by
        simp only [List.filter_eq_nil_iff, found, List.mem_flatMap, List.mem_map, beq_iff_eq]
        rintro _ ⟨⟨other, j⟩, hmem, violation, -, rfl⟩
        have := List.le_snd_of_mem_zipIdx hmem
        simp only
        omega
      rw [hlater]
      simp
    | succ i =>
      have hshift : start + (i + 1) = start + 1 + i := by omega
      simp [hshift, ih]

/-- What a report says about one rule is what the rule finds alone. -/
lemma reportedBy_eq (linter : Linter) (source : Source) (i : Nat) :
    linter.reportedBy source i =
      linter.rules[i]?.elim [] fun active => violationsOf active source (Regions.resolve source) := by
  have hrow := filter_found source 0 i linter.rules
  rw [Nat.zero_add] at hrow
  have hsorted : ((found source 0 linter.rules).filter fun entry => entry.1 == i).Pairwise
      fun a b => reportsBefore a b = true := by
    rw [hrow, List.pairwise_map]
    cases linter.rules[i]? with
    | none => simp
    | some active =>
      refine (pairwise_offset_violationsOf active source _).imp fun {a b} h => ?_
      rw [reportsBefore_iff]
      simp only
      omega
  -- the row of a rule is in order before the merge, and a stable sort takes no two of its members out of order
  have hsub := (List.sublist_mergeSort reportsBefore_trans reportsBefore_total hsorted List.filter_sublist).filter
    fun entry => entry.1 == i
  rw [List.filter_filter] at hsub
  have hkept := hsub.eq_of_length ?_
  · rw [reportedBy, ranked, ← hkept]
    simp [hrow, Function.comp_def]
  · simpa using (((List.mergeSort_perm (found source 0 linter.rules) reportsBefore).filter _).length_eq).symm

/-- A report is a stable merge: it is ordered by offset and then by the number of the rule, what it says about a rule is
what the rule finds alone, under the severity it was given, and so the other rules make no difference to it. -/
theorem lint_merges (linter : Linter) (source : Source) :
    (linter.lint source).violations = (linter.ranked source).map Prod.snd ∧
    ((linter.ranked source).Pairwise fun a b =>
      a.2.position.offset < b.2.position.offset ∨ a.2.position.offset = b.2.position.offset ∧ a.1 ≤ b.1) ∧
    (∀ i, linter.reportedBy source i = linter.rules[i]?.elim [] fun active =>
      (active.rule.detect source ((Regions.resolve source).forRule active.rule.id)).map fun violation =>
        { violation with severity := active.severity }) ∧
    ∀ (other : Linter) (i j : Nat), other.rules[j]? = linter.rules[i]? →
      other.reportedBy source j = linter.reportedBy source i := by
  refine ⟨violations_lint linter source, ?_, reportedBy_eq linter source, ?_⟩
  · exact (linter.pairwise_ranked source).imp reportsBefore_iff.1
  · intro other i j hsame
    rw [reportedBy_eq, reportedBy_eq, hsame]

/-- A rule that is asked twice, the second time under another severity and behind another rule, finds the same as when it
is asked first. -/
theorem lint_merges_twice :
    let source := Source.ofText "func a() -> Void { expect(x).to(beNil()) }\n"
    let clauses := ActiveRule.mk (Rules.voidReturn true)
    let linter : Linter := ⟨[clauses .warning, .ofRule Rules.expectation, clauses .error]⟩
    let other : Linter := ⟨[clauses .error, .ofRule Rules.expectation]⟩
    other.rules[0]? = linter.rules[2]? ∧ other.reportedBy source 0 = linter.reportedBy source 2 ∧
      (linter.reportedBy source 2).map Violation.render =
        ["1:9: error: Returning Void in a function declaration is redundant (redundant_void_return)"] := by
  intro source clauses linter other
  have hsame : other.rules[0]? = linter.rules[2]? := rfl
  refine ⟨hsame, (lint_merges linter source).2.2.2 other 2 0 hsame, ?_⟩
  rw [(lint_merges linter source).2.2.1]
  decide +kernel

end Linter

end SwiftTidy

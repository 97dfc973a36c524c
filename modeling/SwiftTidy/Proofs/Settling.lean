import SwiftTidy.Proofs.Agreement
import SwiftTidy.Proofs.Origins

/-!
# One pass settles a rule

Every correction of a pass leaves a site less than there was, because an edit makes no new sites and the corrected one
is gone. A pass makes as many corrections as there are sites, so in the end there is none
(`RewritesAlong.length_trail_le`). No care is taken of what a correction does to the sites around it.
-/

namespace SwiftTidy

open SwiftTidy.Tree Rules Rules.Expectation

/-- There are no more members in one list than in another if each of them comes from a member of the other and no two
from the same. -/
lemma length_le_of_injective {α β : Type} {row : List α} {others : List β} {R : α → β → Prop} (hnodup : row.Nodup)
    (h : ∀ a ∈ row, ∃ b ∈ others, R a b) (hinjective : ∀ {a b c}, R a c → R b c → a = b) :
    row.length ≤ others.length := by
  by_cases hrow : row = []
  · simp [hrow]
  obtain ⟨a, ha⟩ := List.exists_mem_of_ne_nil row hrow
  obtain ⟨b, -⟩ := h a ha
  have : Nonempty β := ⟨b⟩
  choose! origin hmem horigin using h
  have hmapped : (row.map origin).Nodup :=
    hnodup.map_on fun a ha b hb heq => hinjective (horigin a ha) (heq ▸ horigin b hb)
  have hsubset : row.map origin ⊆ others := by
    intro b hb
    obtain ⟨a, ha, rfl⟩ := List.mem_map.1 hb
    exact hmem a ha
  simpa using (List.subperm_of_subset hmapped hsubset).length_le

namespace Rule

variable {rule : Rule} {tree : Tree} {regions : List Region} {p : Path}

section

variable (hrule : rule.IsBuiltin)

include hrule

lemma IsBuiltin.findsInPlace : rule.FindsInPlace := by
  rcases hrule with rfl | ⟨closures, rfl⟩
  · exact fun h => (find_expectation h).1
  · exact fun h => (find_voidReturn h).1

lemma nodup_trail (tree : Tree) (regions : List Region) : (rule.trail tree regions).Nodup := by
  have hperm := ((List.reverse_perm _).trans (order_perm rule tree regions)).map Site.path
  exact hperm.nodup_iff.2 (nodup_paths_sites hrule.findsInPlace)

lemma hasSite_of_mem_trail (h : p ∈ rule.trail tree regions) : rule.HasSite tree p := by
  obtain ⟨site, hsite, rfl⟩ := mem_trail.1 h
  obtain ⟨⟨path, -, hfound⟩, -⟩ := mem_sites.1 hsite
  rw [hrule.findsInPlace hfound]
  exact hasSite_iff.2 ⟨site, hfound⟩

lemma mem_trail_iff (hshaped : tree.Shaped) :
    p ∈ rule.trail tree regions ↔
      ∃ site, rule.siteAt? tree p = some site ∧ Region.covers regions site.anchor = false := by
  rw [mem_trail]
  simp only [mem_sites, siteAt?_eq_some_iff]
  constructor
  · rintro ⟨site, ⟨⟨path, -, hfound⟩, hfree⟩, rfl⟩
    rw [hrule.findsInPlace hfound]
    exact ⟨site, hfound, hfree⟩
  · rintro ⟨site, hfound, hfree⟩
    obtain ⟨kind, children, hnode, -⟩ := kind_of_hasSite hrule hshaped (hasSite_iff.2 ⟨site, hfound⟩)
    exact ⟨site, ⟨⟨p, mem_nodePaths.2 ⟨kind, children, hnode⟩, hfound⟩, hfree⟩, hrule.findsInPlace hfound⟩

lemma mem_trail_nil_iff (hshaped : tree.Shaped) : p ∈ rule.trail tree [] ↔ rule.HasSite tree p := by
  rw [mem_trail_iff hrule hshaped, HasSite, Option.isSome_iff_exists]
  simp [Region.covers]

end

lemma correct_eq_of_sites_eq_nil {source : Source} (h : rule.sites source.tree regions = []) :
    rule.correct source regions = ⟨Source.ofTree source.tree, []⟩ := by
  simp [correct, h]

end Rule

namespace Rules

variable {tokens : List Token} {tree later : Tree}

/-- A rewrite leaves a chain less. -/
lemma Rewrites.length_trail_lt (hdescends : Descends tokens tree) {path : Path} (h : Rewrites path tree later) :
    (expectation.trail later []).length < (expectation.trail tree []).length := by
  have hrule : expectation.IsBuiltin := Or.inl rfl
  have hlater := (hdescends.rewrite h).shaped
  obtain ⟨kept, -, hinjective, horigin⟩ := h.exists_origins hdescends
  have hpath : path ∈ expectation.trail tree [] := by
    obtain ⟨chain, right, -, hchain, -⟩ := h
    exact (Rule.mem_trail_nil_iff hrule hdescends.shaped).2 (hasSite_expectation.2 ⟨chain, hchain⟩)
  have hle : (expectation.trail later []).length ≤ ((expectation.trail tree []).erase path).length := by
    refine length_le_of_injective (R := Origin path kept) (Rule.nodup_trail hrule _ _) (fun q' hq' => ?_) hinjective
    obtain ⟨q, hq, hne, hsite⟩ := horigin hrule ((Rule.mem_trail_nil_iff hrule hlater).1 hq')
    exact ⟨q, (List.mem_erase_of_ne hne).2 ((Rule.mem_trail_nil_iff hrule hdescends.shaped).2 hsite), hq⟩
  have hpos := List.length_pos_of_mem hpath
  rw [List.length_erase_of_mem hpath] at hle
  omega

lemma RewritesAlong.length_trail_le (hdescends : Descends tokens tree) {done : List Path}
    (h : RewritesAlong tree done later) :
    (expectation.trail later []).length + done.length ≤ (expectation.trail tree []).length := by
  induction h with
  | refl => simp
  | tail hsteps _ hstep ih =>
    have := hstep.length_trail_lt (hdescends.rewrites hsteps)
    rw [List.length_cons]
    omega

end Rules

namespace Rule

/-- A pass leaves no site of its rule. -/
lemma sites_correct {tokens : List Token} {source : Source} (hdescends : Descends tokens source.tree) {rule : Rule}
    (hrule : rule.IsBuiltin) : rule.sites (rule.correct source []).source.tree [] = [] := by
  rw [← List.length_eq_zero_iff, ← length_trail]
  rcases hrule with rfl | ⟨closures, rfl⟩
  · obtain ⟨pass, h, -, hcorrect⟩ := rewritten_trail source hdescends.shaped (by rw [hdescends.root]; simp) []
    have hle := h.steps.length_trail_le hdescends
    simp only [hcorrect, Source.ofTree]
    omega
  · have hrule : (voidReturn closures).IsBuiltin := Or.inr ⟨closures, rfl⟩
    obtain ⟨pass, h, -, hcorrect⟩ := cleared_trail closures source []
    simp only [hcorrect, Source.ofTree]
    rw [List.length_eq_zero_iff, List.eq_nil_iff_forall_not_mem]
    intro q' hq'
    obtain ⟨q, -, hnotDone, hsite⟩ := h.exists_origin hdescends hrule (hasSite_of_mem_trail hrule hq')
    exact hnotDone ((mem_trail_nil_iff hrule hdescends.shaped).2 hsite)

/-- One pass settles a rule: no site of it is left in the corrected text, so that correcting again changes nothing. -/
theorem correct_settles (rule : Rule) (hrule : rule.IsBuiltin) (text : String) :
    let corrected := (rule.correct (Source.ofText text) []).source
    rule.sites corrected.tree [] = [] ∧ (rule.correct corrected []).corrections = [] ∧
      (rule.correct corrected []).source.text = corrected.text := by
  intro corrected
  have hsites : rule.sites corrected.tree [] = [] := sites_correct (descends_parse text) hrule
  rw [correct_eq_of_sites_eq_nil hsites]
  exact ⟨hsites, rfl, rfl⟩

/-- Chains in the subject and in the operand of a chain. -/
theorem correct_settles_nested :
    let text := "expect(expect(a).to(beNil())).to(equal(expect(b).to(beTrue())))\n"
    let corrected := (expectation.correct (Source.ofText text) []).source
    expectation.IsBuiltin ∧ expectation.HasSite (parse text) [0] ∧ expectation.sites corrected.tree [] = [] := by
  have hrule : expectation.IsBuiltin := Or.inl rfl
  exact ⟨hrule, by decide +kernel, (correct_settles expectation hrule _).1⟩

end Rule

end SwiftTidy

import SwiftTidy.Proofs.Clearing
import SwiftTidy.Proofs.Rewriting
import Mathlib.Data.List.Perm.Subperm

/-!
# The turns of a pass

A pass comes to the sites of a rule one after the other, and each time it may edit the tree. What a rule does at
its turn is told by the site and by where the pass stands then (`Rule.Turn`).

Whatever the rule is, its failures are of no consequence: a pass is the same if the rule finds nothing and changes
nothing where it fails (`Rule.correct_lenient`). If the rule changes nothing but the nodes that it finds, no site
is lost on the way: a site comes before all sites that it lies in, so it is still there at its turn
(`Rule.inner_turns_first`).
-/

namespace SwiftTidy

open SwiftTidy.Tree

/-- The place of the part that a change is about. -/
def Change.path : Change → Path
  | .remove path => path
  | .replace path _ => path

lemma Change.skip_apply (change : Change) (tree : Tree) :
    Error.skip (change.apply tree) = if change.path = [] then none else
      match change with
      | .remove path => some (Edit.remove tree path)
      | .replace path new => some (Edit.replace tree path new) := by
  cases change with
  | remove path => cases path <;> rfl
  | replace path new => cases path <;> rfl

lemma Change.isSome_skip_apply (change : Change) (tree : Tree) :
    (Error.skip (change.apply tree)).isSome = decide (change.path ≠ []) := by
  rw [skip_apply]
  by_cases h : change.path = []
  · simp [h]
  · cases change <;> simp [h]

namespace Rule

/-- A turn of a pass: a site, and where the pass stands when it comes to it. -/
structure Turn where
  site : Site
  pass : Pass

/-- The turns of a pass that comes to the given sites. -/
def turnsFrom (rule : Rule) (lines : Lines) : Pass → List Site → List Turn
  | _, [] => []
  | pass, site :: rest => ⟨site, pass⟩ :: turnsFrom rule lines (rule.correctSite lines pass site) rest

/-- The turns of a pass of a rule over a source. -/
def turns (rule : Rule) (source : Source) (regions : List Region) : List Turn :=
  rule.turnsFrom source.lines ⟨source.tree, some, []⟩ (rule.order source.tree regions)

/-- The change that a rule offers at a turn, if the site is still there. -/
def offer? (rule : Rule) (turn : Turn) : Option Change :=
  (turn.pass.moved turn.site.path).bind fun path =>
    (Error.skip (rule.check.fix turn.pass.tree { turn.site with path := path })).join

/-- The edit that is made at a turn. -/
def made? (rule : Rule) (turn : Turn) : Option Edit :=
  (rule.offer? turn).bind fun change => Error.skip (change.apply turn.pass.tree)

variable {rule : Rule} {lines : Lines} {pass : Pass} {site : Site}

section

variable (rule lines pass)

lemma correctSite_eq (site : Site) :
    rule.correctSite lines pass site =
      match rule.made? ⟨site, pass⟩ with
      | none => pass
      | some edit =>
        ⟨edit.tree, fun path => (pass.moved path).bind edit.moved, rule.correction lines site :: pass.corrections⟩ := by
  cases hmoved : pass.moved site.path with
  | none => simp [correctSite, made?, offer?, hmoved]
  | some path =>
    have hmade : rule.made? ⟨site, pass⟩ = rule.edit? pass.tree { site with path := path } := by
      simp [made?, offer?, hmoved, edit?]
    rw [correctSite, hmoved, hmade]
    rfl

lemma turnsFrom_append (front back : List Site) :
    rule.turnsFrom lines pass (front ++ back) =
      rule.turnsFrom lines pass front ++ rule.turnsFrom lines (front.foldl (rule.correctSite lines) pass) back := by
  induction front generalizing pass with
  | nil => rfl
  | cons site front ih => simp [turnsFrom, ih]

@[simp] lemma map_site_turnsFrom (sites : List Site) : (rule.turnsFrom lines pass sites).map Turn.site = sites := by
  induction sites generalizing pass with
  | nil => rfl
  | cons site rest ih => simp [turnsFrom, ih]

lemma corrections_foldl (sites : List Site) :
    (sites.foldl (rule.correctSite lines) pass).corrections =
      (((rule.turnsFrom lines pass sites).filter fun turn => (rule.made? turn).isSome).map
        fun turn => rule.correction lines turn.site).reverse ++ pass.corrections := by
  induction sites generalizing pass with
  | nil => rfl
  | cons site rest ih =>
    rw [List.foldl_cons, ih, turnsFrom, correctSite_eq]
    cases hmade : rule.made? ⟨site, pass⟩ <;> simp [hmade]

lemma tree_foldl_of_corrections (sites : List Site) (h : (sites.foldl (rule.correctSite lines) pass).corrections = []) :
    (sites.foldl (rule.correctSite lines) pass).tree = pass.tree := by
  induction sites generalizing pass with
  | nil => rfl
  | cons site rest ih =>
    rw [List.foldl_cons] at h ⊢
    rw [ih _ h, correctSite_eq]
    cases hmade : rule.made? ⟨site, pass⟩ with
    | none => rfl
    | some edit =>
      rw [corrections_foldl, correctSite_eq, hmade] at h
      simp at h

end

lemma corrections_correct (rule : Rule) (source : Source) (regions : List Region) :
    (rule.correct source regions).corrections =
      (((rule.turns source regions).filter fun turn => (rule.made? turn).isSome).map
        fun turn => rule.correction source.lines turn.site).reverse := by
  exact (corrections_foldl rule source.lines ⟨source.tree, some, []⟩ (rule.order source.tree regions)).trans
    (List.append_nil _)

/-! ## Failures -/

/-- The rule that finds nothing where another one fails in looking at a node, and changes nothing where that one
fails in changing a site or would change the whole tree. -/
def lenient (rule : Rule) : Rule where
  description := rule.description
  check :=
    { find := fun tree path => .ok (Error.skip (rule.check.find tree path)).join
      fix := fun tree site => .ok ((Error.skip (rule.check.fix tree site)).join.filter (·.path ≠ [])) }
  configure := rule.configure

lemma sites_lenient (rule : Rule) (tree : Tree) (regions : List Region) :
    rule.lenient.sites tree regions = rule.sites tree regions := rfl

lemma edit?_lenient (rule : Rule) (tree : Tree) (site : Site) :
    rule.lenient.edit? tree site = rule.edit? tree site := by
  have hfix : Error.skip (rule.lenient.check.fix tree site) =
      some ((Error.skip (rule.check.fix tree site)).join.filter (·.path ≠ [])) := rfl
  rw [edit?, edit?, hfix, Option.join_some]
  cases (Error.skip (rule.check.fix tree site)).join with
  | none => rfl
  | some change =>
    rw [Option.filter_some]
    by_cases hroot : change.path = []
    · simp [hroot, Change.skip_apply]
    · simp [hroot]

lemma correctSite_lenient (rule : Rule) (lines : Lines) : rule.lenient.correctSite lines = rule.correctSite lines := by
  funext pass site
  simp only [correctSite, edit?_lenient]
  rfl

/-- The failures of a rule change nothing. A pass comes to the same as that of the rule which finds nothing and changes
nothing instead of failing. If it records nothing, the tree is what it was, and what it records are positions of
different sites among those that are reported. -/
theorem correct_lenient (rule : Rule) (source : Source) (regions : List Region) :
    rule.correct source regions = rule.lenient.correct source regions ∧
      ((rule.correct source regions).corrections = [] → (rule.correct source regions).source.tree = source.tree) ∧
      ((rule.correct source regions).corrections.map Correction.position).Subperm
        ((rule.detect source regions).map Violation.position) := by
  refine ⟨?_, fun hnone => ?_, ?_⟩
  · simp only [correct, sites_lenient, correctSite_lenient]
  · exact tree_foldl_of_corrections rule source.lines ⟨source.tree, some, []⟩ _ hnone
  · -- the turns with an edit are some of the sites, in another order
    let position (site : Site) : Position := source.lines.position site.anchor
    have hsub : (((rule.turns source regions).filter fun turn => (rule.made? turn).isSome).map
        fun turn => position turn.site).Sublist ((rule.order source.tree regions).map position) := by
      have hturns : (rule.turns source regions).map (fun turn => position turn.site) =
          (rule.order source.tree regions).map position :=
        List.map_map.symm.trans (congrArg (List.map position) (map_site_turnsFrom rule source.lines _ _))
      exact hturns ▸ List.filter_sublist.map _
    have hperm : ((rule.order source.tree regions).map position).Perm ((rule.sites source.tree regions).map position) :=
      (order_perm rule source.tree regions).map position
    rw [corrections_correct, detect, List.map_map, List.map_reverse, List.map_map]
    exact (List.reverse_perm _).subperm.trans (hsub.subperm.trans hperm.subperm)

/-- A rule that never changes anything, as it fails each time. -/
theorem correct_lenient_failing :
    let rule : Rule := { Rules.voidReturn true with
      check := { (Rules.voidReturn true).check with fix := fun _ _ => .error (.internal "no change") } }
    let source := Source.ofText "func f() -> Void {}\n"
    (rule.correct source []).corrections = [] ∧ (rule.correct source []).source.tree = source.tree := by
  intro rule source
  have hnone : (rule.correct source []).corrections = [] := by
    have hmade : ∀ turn, rule.made? turn = none := by
      intro turn
      simp [made?, offer?, rule, Error.skip]
    rw [corrections_correct]
    simp [hmade]
  exact ⟨hnone, (correct_lenient rule source []).2.1 hnone⟩

/-! ## Inner sites first -/

/-- A rule changes nothing but the nodes that it finds. -/
def FixesInPlace (rule : Rule) : Prop :=
  ∀ {tree site change}, rule.check.fix tree site = .ok (some change) → change.path = site.path

end Rule

/-- An edit leaves all nodes in the tree except those in the part at a path. -/
structure Edit.Spares (tree : Tree) (path : Path) (edit : Edit) : Prop where
  stays : ∀ q ∈ tree.nodePaths, ¬ path <+: q → ∃ q' ∈ edit.tree.nodePaths, edit.moved q = some q'
  length : ∀ {q q'}, edit.moved q = some q' → q'.length = q.length
  prefix_iff : ∀ {p p' q q'}, edit.moved p = some p' → edit.moved q = some q' → (p' <+: q' ↔ p <+: q)

namespace Edit

variable {tree part : Tree} {path : Path}

lemma spares_remove (hne : path ≠ []) (hpart : tree.sub? path = some part) : Spares tree path (remove tree path) := by
  have hclears := clears_remove hne hpart
  refine ⟨fun q hq hout => ?_, hclears.relocation.length, hclears.relocation.prefix_iff⟩
  cases hmoved : (remove tree path).moved q with
  | some q' =>
    refine ⟨q', ?_, rfl⟩
    rw [hclears.relocation.nodes, List.mem_filterMap]
    exact ⟨q, hq, hmoved⟩
  | none =>
    exfalso
    rcases hclears.gone q hmoved with hwithin | ⟨blank, hblank, ⟨r, rfl⟩, -⟩
    · exact hout hwithin
    · -- a token holds no node
      obtain ⟨kind, children, hnode⟩ := mem_nodePaths.1 hq
      rw [sub?_append, sub?_of_mem_placedTokens hblank] at hnode
      cases r <;> simp [sub?] at hnode

lemma spares_replace (tree : Tree) (path : Path) (new : Tree) : Spares tree path (replace tree path new) := by
  have hmoved : ∀ {q q'}, (replace tree path new).moved q = some q' → q' = q := by
    intro q q' h
    simp only [replace] at h
    split at h
    · simp at h
    · exact (Option.some.inj h).symm
  refine ⟨fun q hq hout => ⟨q, ?_, by simp [replace, hout]⟩, fun h => by rw [hmoved h],
    fun hp hq => by rw [hmoved hp, hmoved hq]⟩
  obtain ⟨kind, children, hnode⟩ := mem_nodePaths.1 hq
  have hface := map_face_sub?_replaceAt tree new hout
  rw [hnode, Option.map_some, Option.map_eq_some_iff] at hface
  obtain ⟨later, hlater, hface⟩ := hface
  rw [mem_nodePaths]
  cases later with
  | leaf token => simp [face, token?] at hface
  | node kind' children' => exact ⟨kind', children', hlater⟩

end Edit

namespace Rule

/-- Where a pass stands that has dealt with the sites at the given paths: all other nodes are still there. -/
structure Attached (tree : Tree) (done : List Path) (pass : Pass) : Prop where
  stays : ∀ q ∈ tree.nodePaths, (∀ p ∈ done, ¬ p <+: q) → ∃ q' ∈ pass.tree.nodePaths, pass.moved q = some q'
  length : ∀ {q q'}, pass.moved q = some q' → q'.length = q.length
  prefix_iff : ∀ {p p' q q'}, pass.moved p = some p' → pass.moved q = some q' → (p' <+: q' ↔ p <+: q)

namespace Attached

variable {tree : Tree} {done : List Path} {pass : Pass}

lemma init (tree : Tree) (corrections : List Correction) : Attached tree [] ⟨tree, some, corrections⟩ where
  stays q hq _ := ⟨q, hq, rfl⟩
  length h := by simp_all
  prefix_iff hp hq := by simp_all

lemma skip (h : Attached tree done pass) (path : Path) : Attached tree (path :: done) pass :=
  ⟨fun q hq hout => h.stays q hq fun p hp => hout p (List.mem_cons_of_mem _ hp), h.length, h.prefix_iff⟩

lemma edit (h : Attached tree done pass) {path p : Path} (hp : pass.moved path = some p) {edit : Edit}
    (hedit : Edit.Spares pass.tree p edit) (corrections : List Correction) :
    Attached tree (path :: done) ⟨edit.tree, fun q => (pass.moved q).bind edit.moved, corrections⟩ where
  stays q hq hout := by
    obtain ⟨r, hr, hmoved⟩ := h.stays q hq fun p hp => hout p (List.mem_cons_of_mem _ hp)
    have hout' : ¬ p <+: r := by
      rw [h.prefix_iff hp hmoved]
      exact hout path List.mem_cons_self
    obtain ⟨q', hq', hmoved'⟩ := hedit.stays r hr hout'
    exact ⟨q', hq', by simp [hmoved, hmoved']⟩
  length hq := by
    obtain ⟨r, hr, hq⟩ := Option.bind_eq_some_iff.1 hq
    rw [hedit.length hq, h.length hr]
  prefix_iff hp hq := by
    obtain ⟨r, hr, hp⟩ := Option.bind_eq_some_iff.1 hp
    obtain ⟨s, hs, hq⟩ := Option.bind_eq_some_iff.1 hq
    rw [hedit.prefix_iff hp hq, h.prefix_iff hr hs]

end Attached

variable {rule : Rule} {lines : Lines} {pass : Pass} {site : Site} {tree : Tree} {regions : List Region}

/-- The site of a turn is still in the tree, as deep as it was. -/
def Turn.Stands (turn : Turn) : Prop :=
  ∃ path ∈ turn.pass.tree.nodePaths, turn.pass.moved turn.site.path = some path ∧ path.length = turn.site.path.length

lemma Attached.stands {done : List Path} (h : Attached tree done pass) (hsite : site.path ∈ tree.nodePaths)
    (hout : ∀ p ∈ done, ¬ p <+: site.path) : Turn.Stands ⟨site, pass⟩ := by
  obtain ⟨path, hnode, hpath⟩ := h.stays site.path hsite hout
  exact ⟨path, hnode, hpath, h.length hpath⟩

lemma offer?_eq_some_iff {path : Path} (hpath : pass.moved site.path = some path) {change : Change} :
    rule.offer? ⟨site, pass⟩ = some change ↔
      rule.check.fix pass.tree { site with path := path } = .ok (some change) := by
  rw [offer?, hpath, Option.bind_some]
  cases rule.check.fix pass.tree { site with path := path } <;> simp [Error.skip]

lemma isSome_made?_iff (hfix : rule.FixesInPlace) {turn : Turn} (hturn : turn.Stands) :
    (rule.made? turn).isSome ↔ turn.site.path ≠ [] ∧ (rule.offer? turn).isSome := by
  obtain ⟨path, -, hpath, hlength⟩ := hturn
  cases hoffer : rule.offer? turn with
  | none => simp [made?, hoffer]
  | some change =>
    have hchange : change.path = path := hfix ((offer?_eq_some_iff hpath).1 hoffer)
    rw [made?, hoffer, Option.bind_some, Change.isSome_skip_apply, hchange]
    simp [← List.length_eq_zero_iff, hlength]

/-- An edit that is made leaves all other nodes in the tree. -/
lemma spares_of_made? (hfix : rule.FixesInPlace) {path : Path} (hpath : pass.moved site.path = some path)
    (hnode : path ∈ pass.tree.nodePaths) {edit : Edit} (h : rule.made? ⟨site, pass⟩ = some edit) :
    Edit.Spares pass.tree path edit := by
  obtain ⟨change, hoffer, happly⟩ := Option.bind_eq_some_iff.1 h
  have hchange : change.path = path := hfix ((offer?_eq_some_iff hpath).1 hoffer)
  rw [Change.skip_apply, hchange] at happly
  split at happly
  next => simp at happly
  next hne =>
    cases change with
    | remove p =>
      obtain rfl : p = path := hchange
      obtain ⟨kind, children, hpart⟩ := mem_nodePaths.1 hnode
      obtain rfl := Option.some.inj happly
      exact Edit.spares_remove hne hpart
    | replace p new =>
      obtain rfl : p = path := hchange
      obtain rfl := Option.some.inj happly
      exact Edit.spares_replace pass.tree p new

lemma Attached.step {done : List Path} (hfix : rule.FixesInPlace) (h : Attached tree done pass)
    (hsite : site.path ∈ tree.nodePaths) (hout : ∀ p ∈ done, ¬ p <+: site.path) :
    Attached tree (site.path :: done) (rule.correctSite lines pass site) := by
  obtain ⟨path, hnode, hpath, -⟩ := h.stands hsite hout
  rw [correctSite_eq]
  cases hmade : rule.made? ⟨site, pass⟩ with
  | none => exact h.skip site.path
  | some edit => exact h.edit hpath (spares_of_made? hfix hpath hnode hmade) _

/-- At each turn of a pass the site is still in the tree. -/
lemma stands_of_mem_turns (hfind : rule.FindsInPlace) (hfix : rule.FixesInPlace) (source : Source)
    (regions : List Region) : ∀ turn ∈ rule.turns source regions, turn.Stands := by
  have hrun := correct_induction source.tree regions hfind source.lines
    (fun done pass => pass = done.reverse.foldl (rule.correctSite source.lines) ⟨source.tree, some, []⟩ ∧
      Attached source.tree (done.map Site.path) pass ∧
      ∀ turn ∈ rule.turnsFrom source.lines ⟨source.tree, some, []⟩ done.reverse, turn.Stands)
    ⟨rfl, Attached.init source.tree [], by simp [turnsFrom]⟩ (by
      rintro done pass site hsite houter ⟨hpass, hattached, hturns⟩
      obtain ⟨⟨path, hnode, hfound⟩, -⟩ := mem_sites.1 hsite
      obtain rfl := hfind hfound
      have hout : ∀ p ∈ done.map Site.path, ¬ p <+: site.path := by simpa using houter
      refine ⟨by simp [hpass], hattached.step hfix hnode hout, ?_⟩
      intro turn hturn
      rw [List.reverse_cons, turnsFrom_append, ← hpass, List.mem_append] at hturn
      rcases hturn with hturn | hturn
      · exact hturns turn hturn
      · obtain rfl : turn = ⟨site, pass⟩ := by simpa [turnsFrom] using hturn
        exact hattached.stands hnode hout)
  simpa [turns] using hrun.2.2

/-- No site is lost if a rule finds the nodes that it looks at and changes only the nodes that it finds. A pass has a
turn for each site, and none after that of a site that holds it; the site is still in the tree then; and a correction
is recorded for each change that the rule offers other than at the root. -/
theorem inner_turns_first (hfind : rule.FindsInPlace) (hfix : rule.FixesInPlace) (source : Source)
    (regions : List Region) :
    ((rule.turns source regions).map Turn.site).Perm (rule.sites source.tree regions) ∧
      (rule.turns source regions).Pairwise (fun before after => ¬ before.site.path <+: after.site.path) ∧
      (∀ turn ∈ rule.turns source regions,
        ∃ path ∈ turn.pass.tree.nodePaths, turn.pass.moved turn.site.path = some path) ∧
      (rule.correct source regions).corrections.length =
        ((rule.turns source regions).filter fun turn => turn.site.path ≠ [] ∧ (rule.offer? turn).isSome).length := by
  have hsites : (rule.turns source regions).map Turn.site = rule.order source.tree regions :=
    map_site_turnsFrom rule source.lines _ _
  have hstands := stands_of_mem_turns hfind hfix source regions
  refine ⟨hsites ▸ order_perm rule source.tree regions, ?_, fun turn hturn => ?_, ?_⟩
  · have hnodup := ((order_perm rule source.tree regions).map Site.path).nodup_iff.2 (nodup_paths_sites hfind)
    have hbefore := (pairwise_order rule source.tree regions).and (List.pairwise_map.1 hnodup)
    rw [← hsites, List.pairwise_map] at hbefore
    exact hbefore.imp fun ⟨hfixes, hne⟩ hwithin => hne (eq_of_fixesBefore hfixes hwithin)
  · obtain ⟨path, hnode, hpath, -⟩ := hstands turn hturn
    exact ⟨path, hnode, hpath⟩
  · rw [corrections_correct, List.length_reverse, List.length_map]
    congr 1
    refine List.filter_congr fun turn hturn => ?_
    rw [Bool.eq_iff_iff]
    simpa using isSome_made?_iff hfix (hstands turn hturn)

/-- A statement with an assertion in a closure in an assertion. -/
theorem inner_turns_first_nested :
    let source := Source.ofText "expect(f { expect(a).to(beTrue()) }).to(equal(b))\n"
    Rules.expectation.FindsInPlace ∧ Rules.expectation.FixesInPlace ∧
      ∀ turn ∈ Rules.expectation.turns source [],
        ∃ path ∈ turn.pass.tree.nodePaths, turn.pass.moved turn.site.path = some path := by
  have hfind : Rules.expectation.FindsInPlace := fun h => (Rules.find_expectation h).1
  have hfix : Rules.expectation.FixesInPlace := by
    intro tree site change h
    simp only [Rules.expectation, Rules.Expectation.fix] at h
    split at h
    · simp at h
    · split at h
      · simp at h
      · obtain rfl : Change.replace site.path _ = change := by simpa using h
        rfl
  exact ⟨hfind, hfix, (inner_turns_first hfind hfix _ []).2.2.1⟩

end Rule

end SwiftTidy

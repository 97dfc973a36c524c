import SwiftTidy.Proofs.Shedding

/-!
# A linter corrects nothing that was switched off

In an orderly text every correction of a pass leaves one site less that is not switched off, and none of another rule
more (`Rule.active_correct`). So a linter of the rules that come with it makes at most as many corrections as it reports
violations (`Linter.corrections_le_violations`), and a second run finds nothing to correct
(`Linter.correct_idempotent`). Without order both may fail: when a return clause at the beginning of a line is taken
out, two lines become one, and a directive for one line comes to speak of other sites than before.
-/

namespace SwiftTidy

open SwiftTidy.Tree Rules Rules.Expectation

/-! ## One rule -/

/-- What is left of a tree after a number of corrections by a rule. -/
structure Reduced (text : String) (rule : Rule) (tree : Tree) (count : Nat) (later : Tree) : Prop where
  descends : Descends (tokensOf text) later
  orderly : later.Orderly
  length_le : ∀ {other : Rule}, other.IsBuiltin → (other.active later).length ≤ (other.active tree).length
  length_add_le : (rule.active later).length + count ≤ (rule.active tree).length

namespace Reduced

variable {text : String} {rule : Rule} {tree later last : Tree} {count : Nat}

lemma init (rule : Rule) (hdescends : Descends (tokensOf text) tree) (horderly : tree.Orderly) :
    Reduced text rule tree 0 tree := ⟨hdescends, horderly, fun _ => le_rfl, le_rfl⟩

/-- One more correction of a site that is not switched off. -/
lemma step (h : Reduced text rule tree count later) (hrule : rule.IsBuiltin) {path : Path}
    {origin : Path → Path → Prop} (hsheds : Sheds path origin later last) (hdescends : Descends (tokensOf text) last)
    (hpath : path ∈ rule.active later) : Reduced text rule tree (count + 1) last where
  descends := hdescends
  orderly := hsheds.orderly h.orderly h.descends hdescends
  length_le hother :=
    ((hsheds.length_active_le h.orderly.anchored h.descends hdescends hother).trans
      List.erase_sublist.length_le).trans (h.length_le hother)
  length_add_le := by
    have hle := hsheds.length_active_le h.orderly.anchored h.descends hdescends hrule
    have hpos := List.length_pos_of_mem hpath
    have := h.length_add_le
    rw [List.length_erase_of_mem hpath] at hle
    omega

end Reduced

variable {done : List Path} {text : String} {tree later : Tree}

/-- Comparisons in place of chains that are not switched off. -/
lemma Rules.RewritesAlong.reduced (h : RewritesAlong tree done later) (hdescends : Descends (tokensOf text) tree)
    (horderly : tree.Orderly) (hon : ∀ p ∈ done, ¬ tree.Off expectation.id p) :
    Reduced text expectation tree done.length later ∧
      ∀ id q, (∀ p ∈ done, ¬ p <+: q) → (later.Off id q ↔ tree.Off id q) := by
  induction h with
  | refl => exact ⟨.init _ hdescends horderly, fun _ _ _ => Iff.rfl⟩
  | @tail done path later last hsteps houter hstep ih =>
    obtain ⟨hreduced, hoff⟩ := ih fun p hp => hon p (by simp [hp])
    have hrule : expectation.IsBuiltin := Or.inl rfl
    have hpath : path ∈ expectation.active later := by
      refine (Rule.mem_active_iff hreduced.orderly.anchored hreduced.descends hrule).2 ⟨hstep.hasSite, ?_⟩
      rw [hoff _ _ houter]
      exact hon path (by simp)
    obtain ⟨origin, hsheds, hself⟩ := hstep.exists_sheds hreduced.descends hreduced.orderly hpath
    refine ⟨hreduced.step hrule hsheds (hreduced.descends.rewrite hstep) hpath, fun id q hq => ?_⟩
    rw [hsheds.off_iff (hself q (hq path (by simp))), hoff id q fun p hp => hq p (by simp [hp])]

/-- Clauses that are taken out and not switched off. -/
lemma ClearsAlong.reduced {moved : Path → Option Path} (h : ClearsAlong tree done later moved)
    (hdescends : Descends (tokensOf text) tree) (horderly : tree.Orderly) {closures : Bool}
    (hon : ∀ p ∈ done, p ∈ (voidReturn closures).active tree) :
    Reduced text (voidReturn closures) tree done.length later ∧ ∀ {q q'}, moved q = some q' →
      ((voidReturn closures).HasSite tree q → (voidReturn closures).HasSite later q') ∧
        ∀ id, later.Off id q' ↔ tree.Off id q := by
  have hrule : (voidReturn closures).IsBuiltin := Or.inr ⟨closures, rfl⟩
  induction h with
  | refl =>
    refine ⟨.init _ hdescends horderly, fun hq => ?_⟩
    obtain rfl := Option.some.inj hq
    exact ⟨id, fun _ => Iff.rfl⟩
  | @tail done path p later moved edit hsteps hp hclears ih =>
    obtain ⟨hreduced, hmoved⟩ := ih fun p hp => hon p (by simp [hp])
    obtain ⟨hsite, hnotOff⟩ := (Rule.mem_active_iff horderly.anchored hdescends hrule).1 (hon path (by simp))
    have hsitep := (hmoved hp).1 hsite
    have hpath : p ∈ (voidReturn closures).active later := by
      refine (Rule.mem_active_iff hreduced.orderly.anchored hreduced.descends hrule).2 ⟨hsitep, ?_⟩
      rwa [(hmoved hp).2]
    have hclause := hasSite_closures hreduced.descends.shaped hsitep
    have hsheds := hclears.sheds hreduced.descends hreduced.orderly
      (Rule.mem_active_closures hreduced.orderly.anchored hreduced.descends hpath)
    refine ⟨hreduced.step hrule hsheds (hreduced.descends.clear (hclears.cleared hclause)) hpath, fun {q q''} hq => ?_⟩
    obtain ⟨q', hq', hq''⟩ := Option.bind_eq_some_iff.1 hq
    obtain ⟨hkept, hoff⟩ := hmoved hq'
    refine ⟨fun hsite => hclears.hasSite_of_moved hreduced.descends hclause hrule hq'' (hkept hsite), fun id => ?_⟩
    rw [hsheds.off_iff hq'', hoff]

/-- A pass of a rule keeps an orderly tree orderly, leaves no more sites of any rule than there were, and none of its
own. -/
lemma Rule.active_correct {source : Source} (hdescends : Descends (tokensOf text) source.tree)
    (horderly : source.tree.Orderly) {rule : Rule} (hrule : rule.IsBuiltin) :
    let later := (rule.correct source ((Regions.resolve source).forRule rule.id)).source.tree
    later.Orderly ∧
      (∀ {other : Rule}, other.IsBuiltin → (other.active later).length ≤ (other.active source.tree).length) ∧
      rule.active later = [] := by
  intro later
  -- as many sites are corrected as there are
  suffices hreduced : Reduced text rule source.tree (rule.active source.tree).length later by
    have hle := hreduced.length_add_le
    exact ⟨hreduced.orderly, hreduced.length_le, List.length_eq_zero_iff.1 (by omega)⟩
  rcases hrule with rfl | ⟨closures, rfl⟩
  · obtain ⟨pass, h, -, hcorrect⟩ := rewritten_trail source hdescends.shaped (by rw [hdescends.root]; simp)
      ((Regions.resolve source).forRule expectation.id)
    have hlater : later = pass.tree := by simp only [later, hcorrect, Source.ofTree]
    rw [hlater]
    refine (h.steps.reduced hdescends horderly fun p hp => ?_).1
    exact ((mem_active_iff horderly.anchored hdescends (Or.inl rfl)).1 hp).2
  · obtain ⟨pass, h, -, hcorrect⟩ :=
      cleared_trail closures source ((Regions.resolve source).forRule (voidReturn closures).id)
    have hlater : later = pass.tree := by simp only [later, hcorrect, Source.ofTree]
    rw [hlater]
    exact (h.steps.reduced hdescends horderly fun p hp => hp).1

/-! ## All rules -/

namespace Linter

variable {text : String}

lemma countP_map_eq {α β : Type} (name : β → String) (id own : String) {f : α → β} (hown : ∀ a, name (f a) = own)
    (row : List α) : (row.map f).countP (fun b => name b == id) = if own = id then row.length else 0 := by
  rw [List.countP_map]
  split
  next heq => simp [Function.comp_def, hown, heq]
  next hne => simp [Function.comp_def, hown, hne]

variable {rule : Rule} {rules : List ActiveRule}

lemma countP_corrections {source : Source} (hdescends : Descends (tokensOf text) source.tree) (hrule : rule.IsBuiltin)
    (id : String) :
    (rule.correct source ((Regions.resolve source).forRule rule.id)).corrections.countP (fun c => c.rule == id) =
      if rule.id = id then (rule.active source.tree).length else 0 := by
  rw [hdescends.corrections_eq hrule, countP_map_eq Correction.rule id rule.id fun _ => rfl, Rule.active, Rule.trail,
    List.length_map]
  rfl

lemma countP_violationsOf (active : ActiveRule) (source : Source) (id : String) :
    (violationsOf active source (Regions.resolve source)).countP (fun v => v.rule == id) =
      if active.rule.id = id then (active.rule.active source.tree).length else 0 := by
  rw [violationsOf, Rule.detect, List.map_map, countP_map_eq Violation.rule id active.rule.id fun _ => rfl, Rule.active,
    Rule.length_trail]
  rfl

/-- After the rules of a linter have been applied to an orderly source, no rule has more sites than before, and they
have none. -/
lemma active_foldl (hrules : ∀ active ∈ rules, active.rule.IsBuiltin) (state : Source × List Correction)
    (hdescends : Descends (tokensOf text) state.1.tree) (horderly : state.1.tree.Orderly) :
    (∀ {rule : Rule}, rule.IsBuiltin →
        (rule.active (rules.foldl correctWith state).1.tree).length ≤ (rule.active state.1.tree).length) ∧
      ∀ active ∈ rules, active.rule.active (rules.foldl correctWith state).1.tree = [] := by
  induction rules generalizing state with
  | nil => simp
  | cons active rules ih =>
    have hrule := hrules active (by simp)
    obtain ⟨horderly', hle, hnone⟩ := Rule.active_correct hdescends horderly hrule
    obtain ⟨hleRest, hnoneRest⟩ := ih (fun other hother => hrules other (by simp [hother])) (correctWith state active)
      (hdescends.correct hrule _) horderly'
    refine ⟨fun hrule => (hleRest hrule).trans (hle hrule), fun other hother => ?_⟩
    rcases List.mem_cons.1 hother with rfl | hother
    · have hlast := hleRest hrule
      have hnone : other.rule.active (correctWith state other).1.tree = [] := hnone
      rw [hnone] at hlast
      exact List.length_eq_zero_iff.1 (Nat.le_zero.1 hlast)
    · exact hnoneRest other hother

/-- The rules of a linter make at most as many corrections under a name as they have found violations in a source that
has at least as many sites. -/
lemma countP_foldl_le (hrules : ∀ active ∈ rules, active.rule.IsBuiltin) (first : Source)
    (state : Source × List Correction) (hdescends : Descends (tokensOf text) state.1.tree)
    (horderly : state.1.tree.Orderly)
    (hle : ∀ {rule : Rule}, rule.IsBuiltin → (rule.active state.1.tree).length ≤ (rule.active first.tree).length)
    (id : String) :
    (rules.foldl correctWith state).2.countP (fun c => c.rule == id) ≤ state.2.countP (fun c => c.rule == id) +
      (rules.flatMap fun active => violationsOf active first (Regions.resolve first)).countP fun v => v.rule == id := by
  induction rules generalizing state with
  | nil => simp
  | cons active rules ih =>
    have hrule := hrules active (by simp)
    obtain ⟨horderly', hless, -⟩ := Rule.active_correct hdescends horderly hrule
    have hrest := ih (fun other hother => hrules other (by simp [hother])) (correctWith state active)
      (hdescends.correct hrule _) horderly' (fun hrule => (hless hrule).trans (hle hrule))
    have hown : (correctWith state active).2.countP (fun c => c.rule == id) =
        state.2.countP (fun c => c.rule == id) +
          if active.rule.id = id then (active.rule.active state.1.tree).length else 0 := by
      rw [correctWith, List.countP_append, countP_corrections hdescends hrule]
    have hmost := hle hrule
    rw [List.foldl_cons, List.flatMap_cons, List.countP_append, countP_violationsOf]
    rw [hown] at hrest
    split at hrest <;> rename_i hid <;> simp only [hid, if_true, if_false] <;> omega

lemma isCorrectable_of_isBuiltin (hrule : rule.IsBuiltin) : rule.isCorrectable = true := by
  rcases hrule with rfl | ⟨closures, rfl⟩ <;> rfl

variable {linter : Linter}

lemma correct_eq_foldl (hrules : ∀ active ∈ linter.rules, active.rule.IsBuiltin) (source : Source) :
    (linter.correct source).source = (linter.rules.foldl correctWith (source, [])).1 ∧
      (linter.correct source).corrections = (linter.rules.foldl correctWith (source, [])).2 := by
  have hall : (linter.rules.filter fun active => active.rule.isCorrectable) = linter.rules :=
    List.filter_eq_self.2 fun active hactive => isCorrectable_of_isBuiltin (hrules active hactive)
  rw [correct, hall]
  exact ⟨rfl, rfl⟩

lemma violations_perm (linter : Linter) (source : Source) :
    (linter.lint source).violations.Perm
      (linter.rules.flatMap fun active => violationsOf active source (Regions.resolve source)) := by
  have hrow : (linter.rules.zipIdx.flatMap fun x =>
      (violationsOf x.1 source (Regions.resolve source)).map fun violation => (x.2, violation)).map Prod.snd =
      linter.rules.flatMap fun active => violationsOf active source (Regions.resolve source) := by
    rw [List.map_flatMap]
    simp only [List.map_map, Function.comp_def, List.map_id']
    conv_rhs => rw [← List.zipIdx_map_fst 0 linter.rules, List.flatMap_map]
  rw [← hrow]
  exact (List.mergeSort_perm _ _).map _

/-- With nothing left to correct, the rules of a linter leave a source as it is. -/
lemma foldl_correctWith_of_active_eq_nil (state : Source × List Correction)
    (h : ∀ active ∈ rules, active.rule.active state.1.tree = []) :
    (rules.foldl correctWith state).1.tree = state.1.tree ∧ (rules.foldl correctWith state).2 = state.2 := by
  induction rules generalizing state with
  | nil => exact ⟨rfl, rfl⟩
  | cons active rules ih =>
    have hsites : active.rule.sites state.1.tree ((Regions.resolve state.1).forRule active.rule.id) = [] := by
      have hlength := congrArg List.length (h active (by simp))
      rw [Rule.active, Rule.length_trail] at hlength
      exact List.length_eq_zero_iff.1 hlength
    have hstep : correctWith state active = (Source.ofTree state.1.tree, state.2) := by
      simp [correctWith, Rule.correct_eq_of_sites_eq_nil hsites]
    rw [List.foldl_cons, hstep]
    exact ih (Source.ofTree state.1.tree, state.2) fun other hother => h other (by simp [hother])

/-- Under the name of each rule, a linter makes at most as many corrections in an orderly text as it reports
violations. -/
theorem corrections_le_violations (linter : Linter) (hrules : ∀ active ∈ linter.rules, active.rule.IsBuiltin)
    (text : String) (horderly : (parse text).Orderly) (id : String) :
    (linter.correct (Source.ofText text)).corrections.countP (fun correction => correction.rule == id) ≤
      (linter.lint (Source.ofText text)).violations.countP (fun violation => violation.rule == id) := by
  rw [(correct_eq_foldl hrules _).2, (violations_perm linter _).countP_eq]
  simpa using countP_foldl_le hrules (Source.ofText text) (Source.ofText text, []) (descends_parse text) horderly
    (fun _ => le_rfl) id

/-- The first of two chains is switched off by a directive for its line. -/
theorem corrections_le_violations_next :
    let text := "// kestrel:disable:next nimble_operator\nexpect(a).to(beNil())\nexpect(b).to(beTrue())\n"
    let source := Source.ofText text
    (∀ active ∈ builtin.rules, active.rule.IsBuiltin) ∧ (parse text).Orderly ∧ (parse text).HasLineDirective ∧
      (builtin.correct source).corrections.countP (fun correction => correction.rule == "nimble_operator") ≤
        (builtin.lint source).violations.countP (fun violation => violation.rule == "nimble_operator") := by
  intro text source
  have horderly : (parse text).Orderly := by decide +kernel
  exact ⟨isBuiltin_of_mem_builtin, horderly, by decide +kernel,
    corrections_le_violations builtin isBuiltin_of_mem_builtin text horderly "nimble_operator"⟩

/-- A directive for the next line no longer speaks of a chain once the return clause before it is taken out together
with the line break before the clause. So the chain is corrected, though no violation was reported. -/
theorem corrections_exceed_violations :
    let source := Source.ofText
      "/* kestrel:disable:next nimble_operator */ func a()\n-> Void { expect(x).to(equal(1)) }\n"
    (builtin.lint source).violations.countP (fun violation => violation.rule == "nimble_operator") = 0 ∧
      (builtin.correct source).corrections.countP (fun correction => correction.rule == "nimble_operator") = 1 := by
  decide +kernel

/-- Correcting an orderly text once more changes nothing. -/
theorem correct_idempotent (linter : Linter) (hrules : ∀ active ∈ linter.rules, active.rule.IsBuiltin) (text : String)
    (horderly : (parse text).Orderly) :
    let once := linter.correct (Source.ofText text)
    let twice := linter.correct once.source
    twice.corrections = [] ∧ twice.source.text = once.source.text := by
  intro once twice
  have hnone : ∀ active ∈ linter.rules, active.rule.active once.source.tree = [] := by
    rw [(correct_eq_foldl hrules _).1]
    exact (active_foldl hrules (Source.ofText text, []) (descends_parse text) horderly).2
  obtain ⟨htree, hcorrections⟩ := foldl_correctWith_of_active_eq_nil (once.source, []) hnone
  obtain ⟨hsource, hreport⟩ := correct_eq_foldl hrules once.source
  exact ⟨hreport.trans hcorrections, by rw [Source.text, Source.text, hsource, htree]⟩

/-- A chain is switched off, and a clause is taken out. -/
theorem correct_idempotent_disabled :
    let text := "// kestrel:disable nimble_operator\nexpect(a).to(beNil())\nfunc b() -> Void {}\n"
    let once := builtin.correct (Source.ofText text)
    let twice := builtin.correct once.source
    (∀ active ∈ builtin.rules, active.rule.IsBuiltin) ∧ (parse text).Orderly ∧ once.source.text ≠ text ∧
      twice.corrections = [] ∧ twice.source.text = once.source.text := by
  intro text once twice
  have horderly : (parse text).Orderly := by decide +kernel
  exact ⟨isBuiltin_of_mem_builtin, horderly, by decide +kernel,
    correct_idempotent builtin isBuiltin_of_mem_builtin text horderly⟩

/-- A directive for the next line speaks of the inner clause only until the outer one is taken out together with the
line break before it. -/
theorem correct_twice_differs :
    let once := builtin.correct (Source.ofText
      "/* kestrel:disable:next redundant_void_return */ func a()\n-> Void { func b() -> Void {} }\n")
    let twice := builtin.correct once.source
    twice.corrections ≠ [] ∧ twice.source.text ≠ once.source.text := by
  decide +kernel

end Linter

end SwiftTidy

import SwiftTidy.Proofs.Removal
import SwiftTidy.Proofs.Sites
import SwiftTidy.Rules.VoidReturn

/-!
# A pass that takes out return clauses

Several clauses are taken out one after the other, each from the tree that the removals before it have left. Seen
from the first tree, what is gone in the end are the clauses and blanks beside them (`Rules.cleared_trail`):
a blank beside one clause that went because of another one has lost the clauses in between, and the nearest of
these is the one that it lies beside.
-/

namespace SwiftTidy

open SwiftTidy.Tree

/-- The parts at the given paths of a tree are taken out one after the other, the last one first, together with blanks
beside them. -/
inductive ClearsAlong (tree : Tree) : List Path → Tree → (Path → Option Path) → Prop where
  | refl : ClearsAlong tree [] tree some
  | tail {done : List Path} {path p : Path} {later : Tree} {moved : Path → Option Path} {edit : Edit} :
      ClearsAlong tree done later moved → moved path = some p → Edit.Clears later p edit →
      ClearsAlong tree (path :: done) edit.tree fun q => (moved q).bind edit.moved

/-- A pass has taken out the parts at the given paths of a tree and blanks beside them. -/
structure Cleared (tree : Tree) (done : List Path) (pass : Pass) : Prop where
  steps : ClearsAlong tree done pass.tree pass.moved
  relocation : tree.Relocation pass.tree pass.moved
  inside : ∀ p ∈ done, ∀ q, p <+: q → pass.moved q = none
  gone : ∀ q, pass.moved q = none → (∃ p ∈ done, p <+: q) ∨
    ∃ blank ∈ tree.placedTokens, blank.path <+: q ∧ blank.isBlank = true ∧ ∃ p ∈ done, tree.Beside p blank
  trimming : tree.Trimming pass.tree pass.moved

namespace Cleared

variable {tree : Tree} {done : List Path} {pass : Pass}

lemma init (tree : Tree) (corrections : List Correction) : Cleared tree [] ⟨tree, some, corrections⟩ where
  steps := .refl
  relocation := Relocation.refl tree
  inside := by simp
  gone := by simp
  trimming := Trimming.refl tree

variable {path p : Path}

/-- A node that is in none of the parts taken out is still there. -/
lemma exists_moved (h : Cleared tree done pass) (hpath : path ∈ tree.nodePaths) (houter : ∀ p ∈ done, ¬ p <+: path) :
    ∃ p, pass.moved path = some p ∧ p ∈ pass.tree.nodePaths := by
  cases hp : pass.moved path with
  | none =>
    exfalso
    rcases h.gone path hp with ⟨p, hp, hwithin⟩ | ⟨blank, hblank, ⟨r, rfl⟩, -⟩
    · exact houter p hp hwithin
    · -- a token holds no node
      obtain ⟨kind, children, hnode⟩ := mem_nodePaths.1 hpath
      rw [sub?_append, sub?_of_mem_placedTokens hblank] at hnode
      cases r <;> simp [sub?] at hnode
  | some p =>
    refine ⟨p, rfl, ?_⟩
    rw [h.relocation.nodes, List.mem_filterMap]
    exact ⟨path, hpath, hp⟩

/-- A blank beside a part, in the tree that is left, lay beside it or beside a part taken out before. -/
lemma exists_beside_of_moved (h : Cleared tree done pass) (hp : pass.moved path = some p) {a b : Placed}
    (hmoved : pass.moved a.path = some b.path) (hbeside : pass.tree.Beside p b) :
    ∃ q ∈ path :: done, tree.Beside q a := by
  obtain ⟨inner, hinner, hwithin, htrivia⟩ := hbeside
  obtain ⟨c, hc, hcmoved, -⟩ := h.relocation.exists_token hinner
  refine exists_beside hc ⟨path, by simp, (h.relocation.prefix_iff hp hcmoved).1 hwithin⟩ ?_
  intro d hd hbetween
  cases hdmoved : pass.moved d.path with
  | none =>
    rcases h.gone _ hdmoved with ⟨q, hq, hqd⟩ | ⟨blank, hblank, hwithin, hisBlank, -⟩
    · exact Or.inr ⟨q, by simp [hq], hqd⟩
    · rw [← eq_of_isPrefix hblank hd hwithin]
      exact Or.inl (Placed.isTrivia_of_isBlank hisBlank)
  | some r =>
    have hbetween' := (h.relocation.between_iff hmoved hdmoved hcmoved).2 hbetween
    have htrivia' := htrivia _ (h.relocation.mem_tokens hd hdmoved) (by simpa using hbetween')
    exact Or.inl htrivia'

/-- Clearing one more part of the tree that is left. -/
lemma step (h : Cleared tree done pass) (hspare : tree.SpareAt path) (hp : pass.moved path = some p) {edit : Edit}
    (hedit : Edit.Clears pass.tree p edit) (corrections : List Correction) :
    Cleared tree (path :: done) ⟨edit.tree, fun q => (pass.moved q).bind edit.moved, corrections⟩ where
  steps := h.steps.tail hp hedit
  relocation := h.relocation.trans hedit.relocation
  inside q hq r hr := by
    rcases List.mem_cons.1 hq with rfl | hq
    · cases hmoved : pass.moved r with
      | none => simp [hmoved]
      | some r' =>
        have hwithin := (h.relocation.prefix_iff hp hmoved).2 hr
        simp [hmoved, hedit.inside r' hwithin]
    · simp [h.inside q hq r hr]
  gone q hq := by
    cases hmoved : pass.moved q with
    | none =>
      rcases h.gone q hmoved with ⟨r, hr, hwithin⟩ | ⟨blank, hblank, hwithin, hisBlank, r, hr, hbeside⟩
      · exact Or.inl ⟨r, by simp [hr], hwithin⟩
      · exact Or.inr ⟨blank, hblank, hwithin, hisBlank, r, by simp [hr], hbeside⟩
    | some q' =>
      simp only [hmoved, Option.bind_some] at hq
      rcases hedit.gone q' hq with hwithin | ⟨b, hb, hwithin, hisBlank, hbeside, -⟩
      · exact Or.inl ⟨path, by simp, (h.relocation.prefix_iff hp hmoved).1 hwithin⟩
      · obtain ⟨a, ha, hamoved, htoken⟩ := h.relocation.exists_token hb
        refine Or.inr ⟨a, ha, (h.relocation.prefix_iff hamoved hmoved).1 hwithin, ?_,
          h.exists_beside_of_moved hp hamoved hbeside⟩
        simpa [Placed.isBlank, Placed.isSpace, Placed.isNewline, htoken] using hisBlank
  trimming := h.trimming.trans (hedit.trimming (h.trimming.spareAt hp hspare))

end Cleared

namespace Rules

variable {closures : Bool} {path : Path} {site : Site} {tree : Tree}

lemma ownerKind?_of_inClosure? {inClosure : Bool} (h : VoidReturn.inClosure? closures tree path = some inClosure) :
    tree.ownerKind? path = some .functionSignature ∨ tree.ownerKind? path = some .closureSignature := by
  rw [VoidReturn.inClosure?] at h
  split at h
  next howner => exact Or.inl howner
  next howner => exact Or.inr howner
  next => simp at h

/-- A site is the return clause of a signature. -/
lemma find_voidReturn (h : (voidReturn closures).check.find tree path = .ok (some site)) :
    site.path = path ∧ tree.SpareAt path := by
  simp only [voidReturn, VoidReturn.check, VoidReturn.find] at h
  split at h
  next clause inClosure hclause hin =>
    split at h
    next hvoid =>
      simp only [Bool.and_eq_true, beq_iff_eq] at hvoid
      split at h
      · simp at h
      · simp only [Except.ok.injEq, Option.some.injEq] at h
        refine ⟨by rw [← h], ?_⟩
        obtain ⟨part, hpart, rfl⟩ := Option.map_eq_some_iff.1 hclause
        obtain ⟨⟨hnode, hkind⟩, -⟩ := hvoid
        obtain ⟨children, rfl⟩ := exists_node_of_kind hnode hkind
        rcases ownerKind?_of_inClosure? hin with howner | howner
        · exact spareAt_of_ownerKind? hpart howner rfl
        · exact spareAt_of_ownerKind? hpart howner rfl
    next => simp at h
  next => simp at h

lemma correctSite_voidReturn {lines : Lines} {pass : Pass} {p : Path} (hp : pass.moved site.path = some p)
    (hne : p ≠ []) :
    (voidReturn closures).correctSite lines pass site =
      ⟨(Edit.remove pass.tree p).tree, fun q => (pass.moved q).bind (Edit.remove pass.tree p).moved,
        ⟨(voidReturn closures).id, lines.position site.anchor⟩ :: pass.corrections⟩ := by
  have happly : (Change.remove p).apply pass.tree = .ok (Edit.remove pass.tree p) := by
    cases p with
    | nil => simp at hne
    | cons i p => rfl
  simp [Rule.correctSite, hp, Rule.edit?, voidReturn, VoidReturn.check, Error.skip, happly]

/-- A pass takes out the clauses of all its sites, one after the other, and blanks beside them. -/
theorem cleared_trail (closures : Bool) (source : Source) (regions : List Region) :
    ∃ pass, Cleared source.tree ((voidReturn closures).trail source.tree regions) pass ∧
      pass.corrections = ((voidReturn closures).order source.tree regions).reverse.map
        ((voidReturn closures).correction source.lines) ∧
      (voidReturn closures).correct source regions = ⟨Source.ofTree pass.tree, pass.corrections⟩ := by
  have hfind : (voidReturn closures).FindsInPlace := fun h => (find_voidReturn h).1
  obtain ⟨hpass, hcorrections⟩ := Rule.correct_induction source.tree regions hfind source.lines
    (fun done pass => Cleared source.tree (done.map Site.path) pass ∧
      pass.corrections = done.map ((voidReturn closures).correction source.lines))
    ⟨Cleared.init source.tree [], rfl⟩ (by
      rintro done pass site hsite houter ⟨h, hcorrections⟩
      obtain ⟨⟨path, hpath, hfound⟩, -⟩ := Rule.mem_sites.1 hsite
      obtain ⟨rfl, hspare⟩ := find_voidReturn hfound
      obtain ⟨p, hp, hnode⟩ := h.exists_moved hpath (by simpa using houter)
      have hpne : p ≠ [] := by
        rintro rfl
        exact hspare.ne_nil (List.length_eq_zero_iff.1 (h.relocation.length hp).symm)
      obtain ⟨kind, children, hpart⟩ := mem_nodePaths.1 hnode
      rw [correctSite_voidReturn hp hpne, List.map_cons, List.map_cons, hcorrections]
      exact ⟨h.step hspare hp (Edit.clears_remove hpne hpart) _, rfl⟩)
  exact ⟨_, hpass, hcorrections, rfl⟩

end Rules

end SwiftTidy

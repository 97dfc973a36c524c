import SwiftTidy.Proofs.Views

/-!
# Removals one after the other

Several parts are taken out, the last one first (`Edit.clear`). As long as each of them holds a significant token, those
that are still to come stay where they are. What a single removal does not notice a row of them does not notice either:
an exchange before them (`Edit.clear_replaceAt_right`), an exchange behind them (`Edit.clear_replaceAt_left`), and what
is around a tree in which all of it happens (`Edit.clear_map_append`).
-/

namespace SwiftTidy

namespace Edit

open SwiftTidy.Tree

/-- Takes out the parts at the given paths, the last one first. -/
def clear (tree : Tree) : List Path → Edit
  | [] => keep tree
  | path :: rest => (clear tree rest).andThen fun later => remove later path

@[simp] lemma clear_nil (tree : Tree) : clear tree [] = keep tree := rfl

lemma tree_clear_cons (tree : Tree) (path : Path) (rest : List Path) :
    (clear tree (path :: rest)).tree = (remove (clear tree rest).tree path).tree := rfl

lemma moved_clear_cons (tree : Tree) (path : Path) (rest : List Path) (p : Path) :
    (clear tree (path :: rest)).moved p = ((clear tree rest).moved p).bind (remove (clear tree rest).tree path).moved := rfl

lemma tree_clear_append (tree : Tree) (front back : List Path) :
    (clear tree (front ++ back)).tree = (clear (clear tree back).tree front).tree := by
  induction front with
  | nil => rfl
  | cons path front ih => rw [List.cons_append, tree_clear_cons, tree_clear_cons, ih]

lemma moved_clear_append (tree : Tree) (front back : List Path) (p : Path) :
    (clear tree (front ++ back)).moved p = ((clear tree back).moved p).bind (clear (clear tree back).tree front).moved := by
  induction front with
  | nil => simp [keep]
  | cons path front ih =>
    rw [List.cons_append, moved_clear_cons, tree_clear_append, ih, Option.bind_assoc]
    rfl

/-- A part holds a significant token. -/
def Holds (tree : Tree) (p : Path) (x : Placed) : Prop :=
  x ∈ tree.placedTokens ∧ x.isTrivia = false ∧ p <+: x.path

/-- Parts with significant tokens, one after the other. -/
structure Lined (tree : Tree) (paths : List Path) : Prop where
  sorted : paths.Pairwise Path.Precedes
  held : ∀ p ∈ paths, ∃ x, Holds tree p x

namespace Lined

variable {tree : Tree} {path : Path} {rest : List Path}

lemma tail (h : Lined tree (path :: rest)) : Lined tree rest :=
  ⟨(List.pairwise_cons.1 h.sorted).2, fun p hp => h.held p (List.mem_cons_of_mem _ hp)⟩

lemma precedes (h : Lined tree (path :: rest)) : ∀ p ∈ rest, Path.Precedes path p := (List.pairwise_cons.1 h.sorted).1

lemma exists_ahead (h : Lined tree (path :: rest)) : ∃ x, Holds tree path x ∧ ∀ p ∈ rest, Path.Precedes x.path p := by
  obtain ⟨x, hx⟩ := h.held path List.mem_cons_self
  obtain ⟨r, hr⟩ := hx.2.2
  refine ⟨x, hx, fun p hp => ?_⟩
  simpa [hr] using (h.precedes p hp).append r []

end Lined

lemma exists_sub?_of_isPrefix {tree part : Tree} {p q : Path} (h : tree.sub? q = some part) (hp : p <+: q) :
    ∃ outer, tree.sub? p = some outer := by
  obtain ⟨r, rfl⟩ := hp
  rw [sub?_append] at h
  cases houter : tree.sub? p with
  | none => simp [houter] at h
  | some outer => exact ⟨outer, rfl⟩

variable {tree old new : Tree} {paths : List Path} {q : Path}

/-- What stands before a significant token that precedes all parts stays where it is and as it is. -/
lemma clear_of_ahead (h : Lined tree paths) {x : Placed} (hx : x ∈ tree.placedTokens) (hsignificant : x.isTrivia = false)
    (hahead : ∀ p ∈ paths, Path.Precedes x.path p) :
    (∀ c, c <+: x.path ∨ Path.Precedes c x.path → (clear tree paths).moved c = some c) ∧
      ∀ c inner, tree.sub? c = some inner → c = x.path ∨ Path.Precedes c x.path →
        (clear tree paths).tree.sub? c = some inner := by
  induction paths generalizing x with
  | nil => exact ⟨fun _ _ => rfl, fun _ _ hinner _ => hinner⟩
  | cons path rest ih =>
    obtain ⟨hmoved, hsub⟩ := ih h.tail hx hsignificant fun p hp => hahead p (List.mem_cons_of_mem _ hp)
    have hxp := hahead path List.mem_cons_self
    have hx' := mem_placedTokens_of_sub? (hsub x.path _ (sub?_of_mem_placedTokens hx) (Or.inl rfl))
    -- the next part is still there because a token of it is
    obtain ⟨y, ⟨hy, hys, hyp⟩, hyahead⟩ := h.exists_ahead
    obtain ⟨part, hpart⟩ := exists_sub?_of_isPrefix
      ((ih h.tail hy hys hyahead).2 y.path _ (sub?_of_mem_placedTokens hy) (Or.inl rfl)) hyp
    refine ⟨fun c hc => ?_, fun c inner hinner hc => ?_⟩
    · rw [moved_clear_cons, hmoved c hc, Option.bind_some]
      exact moved_remove_of_ahead hpart hx' hsignificant (by simpa using hxp) (by simpa using hc)
    · exact sub?_remove_of_ahead hpart hx' hsignificant (by simpa using hxp) (hsub c inner hinner hc) (by simpa using hc)

lemma Lined.exists_part {path : Path} {rest : List Path} (h : Lined tree (path :: rest)) :
    ∃ part, (clear tree rest).tree.sub? path = some part ∧ (clear tree rest).moved path = some path := by
  obtain ⟨y, ⟨hy, hys, hyp⟩, hyahead⟩ := h.exists_ahead
  obtain ⟨hmoved, hsub⟩ := clear_of_ahead h.tail hy hys hyahead
  obtain ⟨part, hpart⟩ := exists_sub?_of_isPrefix (hsub y.path _ (sub?_of_mem_placedTokens hy) (Or.inl rfl)) hyp
  exact ⟨part, hpart, hmoved path (Or.inl hyp)⟩

lemma relocation_clear (h : Lined tree paths) (hroot : [] ∉ paths) :
    tree.Relocation (clear tree paths).tree (clear tree paths).moved := by
  induction paths with
  | nil => exact Relocation.refl tree
  | cons path rest ih =>
    obtain ⟨part, hpart, -⟩ := h.exists_part
    obtain ⟨hne, hroot'⟩ : [] ≠ path ∧ [] ∉ rest := by simpa [not_or] using hroot
    exact (ih h.tail hroot').trans (clears_remove hne.symm hpart).relocation

/-- Significant tokens outside of the parts stay. -/
lemma exists_moved_clear (h : Lined tree paths) (hroot : [] ∉ paths) {y : Placed} (hy : y ∈ tree.placedTokens)
    (hsignificant : y.isTrivia = false) (hout : ∀ p ∈ paths, ¬ p <+: y.path) :
    ∃ y' ∈ (clear tree paths).tree.placedTokens, y'.isTrivia = false ∧ (clear tree paths).moved y.path = some y'.path := by
  induction paths with
  | nil => exact ⟨y, hy, hsignificant, rfl⟩
  | cons path rest ih =>
    obtain ⟨hne, hroot'⟩ : [] ≠ path ∧ [] ∉ rest := by simpa [not_or] using hroot
    obtain ⟨y', hy', hsignificant', hmoved⟩ := ih h.tail hroot' fun p hp => hout p (List.mem_cons_of_mem _ hp)
    obtain ⟨part, hpart, hstays⟩ := h.exists_part
    have hclears := clears_remove hne.symm hpart
    have houter : ¬ path <+: y'.path := by
      rw [(relocation_clear h.tail hroot').prefix_iff hstays hmoved]
      exact hout path List.mem_cons_self
    cases hlast : (remove (clear tree rest).tree path).moved y'.path with
    | some r =>
      refine ⟨_, hclears.relocation.mem_tokens hy' hlast, hsignificant', ?_⟩
      rw [moved_clear_cons, hmoved, Option.bind_some, hlast]
      simp
    | none =>
      exfalso
      rcases hclears.gone _ hlast with hwithin | ⟨blank, hblank, hwithin, hisBlank, -⟩
      · exact houter hwithin
      · rw [← eq_of_isPrefix hblank hy' hwithin] at hsignificant'
        simp [Placed.isTrivia_of_isBlank hisBlank] at hsignificant'

/-! ## Exchanges -/

/-- Removals behind an exchange do not notice it, if significant tokens part them from it. -/
theorem clear_replaceAt_right (h : Lined tree paths) (hold : tree.sub? q = some old) (new : Tree)
    (hparted : ∀ p ∈ paths, ∃ x ∈ tree.placedTokens, x.isTrivia = false ∧ Path.Precedes q x.path ∧ Path.Precedes x.path p) :
    (clear tree paths).moved q = some q ∧ (clear tree paths).tree.sub? q = some old ∧
      clear (tree.replaceAt q new) paths = ⟨(clear tree paths).tree.replaceAt q new, (clear tree paths).moved⟩ := by
  induction paths with
  | nil => exact ⟨rfl, hold, rfl⟩
  | cons path rest ih =>
    obtain ⟨hmoved, hsub, hclear⟩ := ih h.tail fun p hp => hparted p (List.mem_cons_of_mem _ hp)
    obtain ⟨x, hx, hsignificant, hqx, hxp⟩ := hparted path List.mem_cons_self
    obtain ⟨part, hpart, -⟩ := h.exists_part
    have hstays := (clear_of_ahead h.tail hx hsignificant fun p hp => hxp.trans (h.precedes p hp)).2
    have hx' := mem_placedTokens_of_sub? (hstays x.path _ (sub?_of_mem_placedTokens hx) (Or.inl rfl))
    have hqx' : Path.Precedes q (Placed.mk x.path.reverse x.token).path := by simpa using hqx
    have hxp' : Path.Precedes (Placed.mk x.path.reverse x.token).path path := by simpa using hxp
    refine ⟨?_, ?_, ?_⟩
    · rw [moved_clear_cons, hmoved, Option.bind_some]
      exact moved_remove_of_ahead hpart hx' hsignificant hxp' (Or.inr hqx')
    · exact sub?_remove_of_ahead hpart hx' hsignificant hxp' hsub (Or.inr hqx')
    · rw [clear, hclear, andThen]
      simp only
      rw [remove_replaceAt_right hsub new hx' hsignificant hqx' hpart hxp']
      rfl

/-- Removals before an exchange do not notice it, if both what is exchanged and what takes its place begin with a
significant token. -/
theorem clear_replaceAt_left (h : Lined tree paths) (hroot : [] ∉ paths) (hold : tree.sub? q = some old)
    (holdFront : old.Fronted) (hnewFront : new.Fronted) (hahead : ∀ p ∈ paths, Path.Precedes p q) :
    ∃ q', (clear tree paths).moved q = some q' ∧ (clear tree paths).tree.sub? q' = some old ∧
      clear (tree.replaceAt q new) paths = ⟨(clear tree paths).tree.replaceAt q' new, (clear tree paths).moved⟩ := by
  induction paths with
  | nil => exact ⟨q, rfl, hold, rfl⟩
  | cons path rest ih =>
    have hroot' : [] ∉ rest := fun hmem => hroot (List.mem_cons_of_mem _ hmem)
    obtain ⟨r, hmoved, hsub, hclear⟩ := ih h.tail hroot' fun p hp => hahead p (List.mem_cons_of_mem _ hp)
    obtain ⟨part, hpart, hstays⟩ := h.exists_part
    have hpathr : Path.Precedes path r :=
      ((relocation_clear h.tail hroot').precedes hstays hmoved).2 (hahead path List.mem_cons_self)
    obtain ⟨q', hmoved', hsub', hremove⟩ := remove_replaceAt_left hsub holdFront hnewFront hpart hpathr
    refine ⟨q', ?_, hsub', ?_⟩
    · rw [moved_clear_cons, hmoved, Option.bind_some, hmoved']
    · rw [clear, hclear, andThen]
      simp only
      rw [hremove]
      rfl

/-- Removals between significant tokens of a part that stay take place within the part. -/
theorem clear_map_append {whole : Tree} (htree : whole.sub? q = some tree) (h : Lined tree paths)
    (hsheltered : ∀ p ∈ paths, (∃ x ∈ tree.placedTokens, x.isTrivia = false ∧ Path.Precedes x.path p) ∧
      ∃ y ∈ tree.placedTokens, y.isTrivia = false ∧ Path.Precedes p y.path ∧ ∀ r ∈ paths, ¬ r <+: y.path) :
    (clear whole (paths.map (q ++ ·))).tree = whole.replaceAt q (clear tree paths).tree ∧
      ∀ s, (q <+: s → s = q) → (clear whole (paths.map (q ++ ·))).moved s = some s := by
  have hroot : [] ∉ paths := by
    intro hnil
    obtain ⟨⟨x, -, -, h⟩, -⟩ := hsheltered [] hnil
    simp at h
  induction paths with
  | nil => exact ⟨(replaceAt_self htree).symm, fun _ _ => rfl⟩
  | cons path rest ih =>
    have hroot' : [] ∉ rest := fun hmem => hroot (List.mem_cons_of_mem _ hmem)
    obtain ⟨hclear, hmoved⟩ := ih h.tail (fun p hp => by
      obtain ⟨hbefore, y, hy, hys, hpy, hout⟩ := hsheltered p (List.mem_cons_of_mem _ hp)
      exact ⟨hbefore, y, hy, hys, hpy, fun r hr => hout r (List.mem_cons_of_mem _ hr)⟩) hroot'
    obtain ⟨part, hpart, hstays⟩ := h.exists_part
    obtain ⟨⟨x, hx, hxs, hxp⟩, y, hy, hys, hpy, hout⟩ := hsheltered path List.mem_cons_self
    -- both tokens are still there
    have hx' := mem_placedTokens_of_sub? ((clear_of_ahead h.tail hx hxs fun p hp => hxp.trans (h.precedes p hp)).2 x.path _
      (sub?_of_mem_placedTokens hx) (Or.inl rfl))
    obtain ⟨y', hy', hys', hymoved⟩ :=
      exists_moved_clear h.tail hroot' hy hys fun r hr => hout r (List.mem_cons_of_mem _ hr)
    have hpy' := ((relocation_clear h.tail hroot').precedes hstays hymoved).2 hpy
    obtain ⟨hremove, hremoved⟩ := remove_append (sub?_replaceAt_self (clear tree rest).tree htree) hpart
      ⟨⟨_, hx', hxs, by simpa using hxp⟩, y', hy', hys', hpy'⟩
    refine ⟨?_, fun s hs => ?_⟩
    · rw [List.map_cons, tree_clear_cons, hclear, hremove, replaceAt_replaceAt]
      rfl
    · rw [List.map_cons, moved_clear_cons, hmoved s hs, Option.bind_some, hclear]
      exact hremoved s hs

end Edit

end SwiftTidy

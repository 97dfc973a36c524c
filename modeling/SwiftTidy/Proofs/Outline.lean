import SwiftTidy.Proofs.Survey
import SwiftTidy.Proofs.Places

/-!
# What nodes begin with

Nodes of some kinds begin in a fixed way: a list of arguments with its bracket, a call with the expression that is
called. Whether a grammar builds its nodes so can be read off its procedures. An outline says of each symbol how it
goes about the trees built since the mark, and a procedure is traced with what these trees are known to begin
with. A grammar whose procedures pass only builds trees of the right shape (`Outline.keeps_of_outlined`).
-/

namespace SwiftTidy

/-! ## Shapes -/

/-- What a row of trees begins with, as far as it is known. -/
inductive First where
  | nothing
  | token
  | expression
  | anything
  deriving DecidableEq

namespace First

/-- The row begins as it is said to. -/
def Describes : First → List Tree → Prop
  | .nothing, row => row = []
  | .token, row => ∃ token rest, row = .leaf token :: rest ∧ token.isTrivia = false
  | .expression, row => ∃ kind children rest, row = .node kind children :: rest ∧ kind.isExpression = true
  | .anything, _ => True

/-- What a row begins with that is continued by trees which begin with `next`. -/
def add : First → First → First
  | .nothing, next => next
  | first, _ => first

lemma Describes.add {first next : First} {row more : List Tree} (h : first.Describes row)
    (hnext : next.Describes more) : (first.add next).Describes (row ++ more) := by
  cases first with
  | nothing =>
    obtain rfl : row = [] := h
    exact hnext
  | token =>
    obtain ⟨token, rest, rfl, htoken⟩ := h
    exact ⟨token, rest ++ more, rfl, htoken⟩
  | expression =>
    obtain ⟨kind, children, rest, rfl, hkind⟩ := h
    exact ⟨kind, children, rest ++ more, rfl, hkind⟩
  | anything => trivial

end First

/-- Whether nodes of a kind may begin so. -/
def Kind.begins (kind : Kind) (first : First) : Bool :=
  match kind with
  | .callExpr => first == .expression
  | .argumentList | .returnClause | .tupleType => first == .token
  | _ => !kind.isExpression || first == .token || first == .expression

namespace Tree

/-- All nodes of a tree begin as nodes of their kind do. -/
def Shaped (tree : Tree) : Prop :=
  ∀ p kind children, tree.sub? p = some (.node kind children) →
    ∃ first : First, kind.begins first = true ∧ first.Describes children

lemma shaped_leaf (token : Token) : (Tree.leaf token).Shaped := by
  intro p kind children h
  cases p <;> simp [sub?] at h

variable {children : List Tree} {kind : Kind}

lemma shaped_node (first : First) (hkind : kind.begins first = true) (hfirst : first.Describes children)
    (hchildren : ∀ child ∈ children, child.Shaped) : (Tree.node kind children).Shaped := by
  intro p k cs h
  obtain heq | ⟨child, hchild, q, hsub⟩ := sub?_node_cases h
  · obtain ⟨rfl, rfl⟩ := Tree.node.inj heq
    exact ⟨first, hkind, hfirst⟩
  · exact hchildren child hchild q k cs hsub

lemma Shaped.sub? {tree part : Tree} (h : tree.Shaped) {p : Path} (hpart : tree.sub? p = some part) :
    part.Shaped := fun q kind children hq => h (p ++ q) kind children ((sub?_append_some hpart q).trans hq)

lemma Shaped.child {tree child : Tree} (h : tree.Shaped) (hchild : child ∈ tree.children) : child.Shaped := by
  obtain ⟨i, hi⟩ := exists_sub?_of_mem tree hchild
  exact h.sub? hi

variable (h : (Tree.node kind children).Shaped)

include h

lemma Shaped.begins : ∃ first : First, kind.begins first = true ∧ first.Describes children :=
  h [] kind children rfl

lemma Shaped.begins_token (hkind : kind.begins = (· == .token)) :
    ∃ token rest, children = .leaf token :: rest ∧ token.isTrivia = false := by
  obtain ⟨first, hbegins, hfirst⟩ := h.begins
  obtain rfl : first = .token := by simpa [hkind] using hbegins
  exact hfirst

lemma Shaped.begins_expression (hkind : kind.begins = (· == .expression)) :
    ∃ first inner rest, children = .node first inner :: rest ∧ first.isExpression = true := by
  obtain ⟨first, hbegins, hfirst⟩ := h.begins
  obtain rfl : first = .expression := by simpa [hkind] using hbegins
  exact hfirst

end Tree

namespace Grammar

open Token (significant)

lemma shaped_append {front back : List Tree} (hfront : ∀ tree ∈ front, tree.Shaped)
    (hback : ∀ tree ∈ back, tree.Shaped) : ∀ tree ∈ front ++ back, tree.Shaped :=
  List.forall_mem_append.2 ⟨hfront, hback⟩

lemma shaped_leaves (tokens : List Token) : ∀ tree ∈ tokens.map Tree.leaf, tree.Shaped := by
  intro tree htree
  obtain ⟨token, -, rfl⟩ := List.mem_map.1 htree
  exact Tree.shaped_leaf token

variable {σ : Type}

namespace Progress

lemma built_flush (s : Progress) : s.flush.built = s.built ++ (gap s.rest).map Tree.leaf := rfl

/-- Taking a token adds the trivia before it and the token, if there is one. -/
lemma exists_built_take (s : Progress) :
    ∃ more, s.flush.shift.built = s.built ++ more ∧ (∀ tree ∈ more, tree.Shaped) ∧
      (gap s.rest = [] → significant s.rest ≠ [] → First.token.Describes more) := by
  have hleaf := shaped_leaves (gap s.rest)
  cases hr : pastGap s.rest with
  | nil =>
    refine ⟨(gap s.rest).map Tree.leaf, by simp [shift, hr, built_flush], hleaf, ?_⟩
    intro _ hne
    rw [← significant_pastGap, hr] at hne
    exact absurd rfl hne
  | cons token rest =>
    have htoken : token.isTrivia = false := by
      have hgap := gap_pastGap s.rest
      rw [hr, gap] at hgap
      by_contra h
      simp [List.takeWhile_cons, h] at hgap
    refine ⟨(gap s.rest).map Tree.leaf ++ [.leaf token], by simp [shift, hr, built_flush], ?_, ?_⟩
    · exact shaped_append hleaf (shaped_leaves [token])
    · intro hgap _
      exact ⟨token, [], by simp [hgap], htoken⟩

end Progress

/-! ## Outlines -/

/-- How a symbol goes about the trees built since the mark. -/
inductive Role where
  | adds
  /-- They begin with an expression, and it makes a longer one of them. -/
  | prolongs
  | wraps
  deriving DecidableEq

/-- What the symbols of a grammar do with the trees built since the mark. -/
structure Outline (σ : Type) where
  guide : Guide σ
  /-- How a symbol goes about these trees. -/
  role : σ → Role
  /-- What a symbol that adds trees adds first, at its opening and without trivia before it. -/
  yields : σ → First

/-- What is known at a point of a phrase. -/
structure Sketch where
  /-- What is known of the coming tokens. -/
  view : View
  first : First
  tight : Bool

/-- A sketch is right about a point of a phrase: the trees are those of `base` and then some that begin as the
sketch says. -/
def Sketch.Holds (sketch : Sketch) (base : List Tree) (r₀ : List Token)
    (s : Progress) : Prop :=
  ∃ new, s.built = base ++ new ∧ sketch.first.Describes new ∧ (∀ tree ∈ new, tree.Shaped) ∧
    sketch.view.Describes r₀ s.rest ∧ (sketch.tight = true → gap s.rest = [])

namespace Sketch.Holds

variable {base : List Tree} {r₀ : List Token} {s : Progress} {sketch : Sketch}

lemma opened (h : sketch.Holds base r₀ s) : Holds ⟨sketch.view, .nothing, true⟩ [] r₀ s.flush.fresh := by
  obtain ⟨-, -, -, -, hview, -⟩ := h
  exact ⟨[], rfl, rfl, by simp, hview.pastGap, fun _ => by simp⟩

lemma shaped_node {kind : Kind} (h : sketch.Holds [] r₀ s) (hkind : kind.begins sketch.first = true) :
    (Tree.node kind s.built).Shaped ∧ sketch.view.Describes r₀ s.rest := by
  obtain ⟨new, hbuilt, hfirst, hshaped, hview, -⟩ := h
  rw [hbuilt]
  exact ⟨Tree.shaped_node sketch.first hkind hfirst hshaped, hview⟩

end Sketch.Holds

namespace Outline

variable (outline : Outline σ)

/-- Follows a phrase from a sketch and checks the nodes it builds. It may put nodes around all trees since the
mark if they are its `own`. -/
def trace : Bool → Phrase σ → (Sketch → Bool) → Sketch → Bool
  | _, .skip, post, s => post s
  | _, .take, post, s =>
    post ⟨s.view.take, s.first.add (if s.tight && !s.view.ends then .token else .anything), false⟩
  | own, .call Y, post, s =>
    let view := s.view.pass (outline.guide.sure Y) (outline.guide.takes Y)
    match outline.role Y with
    | .adds =>
      let sure := s.tight && s.view.within (outline.guide.sure Y)
      post ⟨view, s.first.add (if sure then outline.yields Y else .anything), false⟩
    | .prolongs => own && s.first == .expression && post ⟨view, .expression, false⟩
    | .wraps => own && post ⟨view, .anything, false⟩
  | own, .seq first second, post, s => trace own first (trace own second post) s
  | own, .choose test yes no, post, s =>
    ((s.view.assume test true).dead || trace own yes post { s with view := s.view.assume test true }) &&
      ((s.view.assume test false).dead || trace own no post { s with view := s.view.assume test false })
  | _, .node kind body, post, s =>
    let added : First := if s.tight && kind.isExpression then .expression else .anything
    trace true body (fun e => kind.begins e.first && post ⟨e.view, s.first.add added, false⟩)
      ⟨s.view, .nothing, true⟩
  | _, .mark body, post, s =>
    trace true body (fun e => post ⟨e.view, s.first.add (if s.tight then e.first else .anything), false⟩)
      ⟨s.view, .nothing, true⟩
  | own, .wrap kind body, post, s =>
    own && trace own body (fun e => kind.begins e.first &&
      post ⟨e.view, if kind.isExpression then .expression else .anything, false⟩) s

/-- The view before one of the given kinds. -/
def before (kinds : Kind → Bool) : View := ⟨kinds, false, false, false⟩

/-- Whether a phrase may stand for the symbol `X`, called only at its sure kinds if these are `known` to come. -/
def outlined (known : Bool) (X : σ) (phrase : Phrase σ) : Bool :=
  let sure := before (outline.guide.sure X)
  let view : View := if known then sure else .blind false false
  match outline.role X with
  | .adds =>
    (view.dead || outline.trace false phrase (fun _ => true) ⟨view, .nothing, false⟩) &&
      (outline.yields X == .anything || sure.dead ||
        outline.trace false phrase (fun e => e.first == outline.yields X) ⟨sure, .nothing, true⟩)
  | .prolongs =>
    view.dead || outline.trace true phrase (fun e => e.first == .expression) ⟨view, .expression, false⟩
  | .wraps => view.dead || outline.trace true phrase (fun _ => true) ⟨view, .anything, false⟩

/-- What a symbol does with the trees built since the mark. -/
def Keeps (X : σ) (s t : Progress) : Prop :=
  match outline.role X with
  | .adds => ∃ new, t.built = s.built ++ new ∧ (∀ tree ∈ new, tree.Shaped) ∧
      (gap s.rest = [] → (Test.sees 0 (outline.guide.sure X)).holds s.rest = true →
        (outline.yields X).Describes new)
  | .prolongs => (∀ tree ∈ s.built, tree.Shaped) → First.expression.Describes s.built →
      (∀ tree ∈ t.built, tree.Shaped) ∧ First.expression.Describes t.built
  | .wraps => (∀ tree ∈ s.built, tree.Shaped) → ∀ tree ∈ t.built, tree.Shaped

variable {outline}

variable {base : List Tree} {left : Progress → Prop} {own : Bool} {post : Sketch → Bool} {r₀ : List Token}
  {s : Progress} {sketch : Sketch}

/-- What a trace finds after a call holds there. -/
lemma holds_of_call {Y : σ} {t : Progress} (h : outline.trace own (.call Y) post sketch = true)
    (hs : sketch.Holds base r₀ s) (hown : own = true → base = []) (hadv : outline.guide.Advances Y s.rest t.rest)
    (hkeeps : outline.Keeps Y s t) (hpost : ∀ e t, post e = true → e.Holds base r₀ t → left t) : left t := by
  obtain ⟨new, hbuilt, hfirst, hshaped, hview, htight⟩ := hs
  have hview' := hadv.describes hview
  rw [trace] at h
  rw [Keeps] at hkeeps
  cases hrole : outline.role Y with
  | adds =>
    simp only [hrole] at h hkeeps
    obtain ⟨more, hmore, hmoreShaped, hyields⟩ := hkeeps
    refine hpost _ t h ⟨new ++ more, by simp [hmore, hbuilt], hfirst.add ?_, ?_, hview', nofun⟩
    · split
      next hsure =>
        rw [Bool.and_eq_true] at hsure
        exact hyields (htight hsure.1) (hview.holds_of_within hsure.2)
      next => trivial
    · exact shaped_append hshaped hmoreShaped
  | prolongs =>
    simp only [hrole, Bool.and_eq_true, beq_iff_eq] at h hkeeps
    obtain ⟨⟨hyes, hexpr⟩, hend⟩ := h
    rw [hown hyes, List.nil_append] at hbuilt
    rw [hexpr, ← hbuilt] at hfirst
    obtain ⟨hshaped', hfirst'⟩ := hkeeps (hbuilt ▸ hshaped) hfirst
    exact hpost _ t hend ⟨t.built, by simp [hown hyes], hfirst', hshaped', hview', nofun⟩
  | wraps =>
    simp only [hrole, Bool.and_eq_true] at h hkeeps
    obtain ⟨hyes, hend⟩ := h
    rw [hown hyes, List.nil_append] at hbuilt
    exact hpost _ t hend ⟨t.built, by simp [hown hyes], trivial, hkeeps (hbuilt ▸ hshaped), hview', nofun⟩

/-- A phrase that passes a trace builds trees of the right shape, and what the trace finds at its end holds. -/
lemma wlp_of_trace (phrase : Phrase σ) (h : outline.trace own phrase post sketch = true) (hs : sketch.Holds base r₀ s)
    (hown : own = true → base = []) (hpost : ∀ e t, post e = true → e.Holds base r₀ t → left t) :
    phrase.wlp (fun Y t u => outline.guide.ready Y t.rest ∧ outline.guide.Advances Y t.rest u.rest ∧
      outline.Keeps Y t u) left s := by
  induction phrase generalizing own post left sketch base s with
  | skip => exact hpost sketch s h hs
  | take =>
    obtain ⟨new, hbuilt, hfirst, hshaped, hview, htight⟩ := hs
    obtain ⟨more, hmore, hmoreShaped, htoken⟩ := s.exists_built_take
    refine hpost _ _ h ⟨new ++ more, by simp [hmore, hbuilt], hfirst.add ?_, ?_, ?_, by simp⟩
    · split
      next hsure =>
        rw [Bool.and_eq_true, Bool.not_eq_true'] at hsure
        refine htoken (htight hsure.1) fun hnil => ?_
        simp [hview.ends (by simp [hnil])] at hsure
      next => trivial
    · exact shaped_append hshaped hmoreShaped
    · simpa [afterTake] using hview.take
  | call Y => exact fun t ht => holds_of_call h hs hown ht.2.1 ht.2.2 hpost
  | seq first second ih₁ ih₂ => exact ih₁ h hs hown fun e t he ht => ih₂ he ht hown hpost
  | choose test yes no ih₁ ih₂ =>
    obtain ⟨new, hbuilt, hfirst, hshaped, hview, htight⟩ := hs
    obtain ⟨hyes, hno⟩ := hview.branches h
    exact ⟨fun ht => ih₁ (hyes ht).2 ⟨new, hbuilt, hfirst, hshaped, (hyes ht).1, htight⟩ hown hpost,
      fun ht => ih₂ (hno ht).2 ⟨new, hbuilt, hfirst, hshaped, (hno ht).1, htight⟩ hown hpost⟩
  | node kind body ih =>
    refine ih h hs.opened (fun _ => rfl) fun e t he ht => ?_
    rw [Bool.and_eq_true] at he
    obtain ⟨hnode, hinnerView⟩ := ht.shaped_node he.1
    obtain ⟨new, hbuilt, hfirst, hshaped, -, htight⟩ := hs
    refine hpost _ _ he.2 ⟨new ++ ((gap s.rest).map Tree.leaf ++ [.node kind t.built]), ?_, hfirst.add ?_, ?_,
      hinnerView, by simp⟩
    · simp [Progress.built_flush, hbuilt]
    · split
      next hsure =>
        rw [Bool.and_eq_true] at hsure
        exact ⟨kind, t.built, [], by simp [htight hsure.1], hsure.2⟩
      next => trivial
    · exact shaped_append hshaped (shaped_append (shaped_leaves _) (by simpa using hnode))
  | mark body ih =>
    refine ih h hs.opened (fun _ => rfl) fun e t he ht => ?_
    obtain ⟨new, hbuilt, hfirst, hshaped, -, htight⟩ := hs
    obtain ⟨inner, hinner, hinnerFirst, hinnerShaped, hinnerView, -⟩ := ht
    rw [List.nil_append] at hinner
    refine hpost _ _ he ⟨new ++ ((gap s.rest).map Tree.leaf ++ t.built), ?_, hfirst.add ?_, ?_,
      hinnerView, by simp⟩
    · simp [Progress.built_flush, hbuilt]
    · split
      next hsure => simpa [htight hsure, hinner] using hinnerFirst
      next => trivial
    · exact shaped_append hshaped (shaped_append (shaped_leaves _) (by rwa [hinner]))
  | wrap kind body ih =>
    rw [trace, Bool.and_eq_true] at h
    obtain ⟨hyes, htrace⟩ := h
    refine ih htrace hs hown fun e t he ht => ?_
    rw [Bool.and_eq_true] at he
    rw [hown hyes] at ht
    obtain ⟨hnode, hinnerView⟩ := ht.shaped_node he.1
    refine hpost _ _ he.2 ⟨[.node kind t.built], by simp [hown hyes], ?_, by simpa using hnode, hinnerView, by simp⟩
    split
    next hexpr => exact ⟨kind, t.built, [], rfl, hexpr⟩
    next => trivial

lemma describes_before {kinds : Kind → Bool} {r : List Token} (h : (Test.sees 0 kinds).holds r = true) :
    (before kinds).Describes r r := by
  rw [Test.holds_sees, ← List.head?_eq_getElem?, Option.any_eq_true] at h
  obtain ⟨t, ht, hkind⟩ := h
  refine ⟨le_rfl, le_rfl, ?_, ?_, nofun, nofun⟩
  · intro u hu
    obtain rfl : t = u := Option.mem_unique ht hu
    exact hkind
  · intro hnone
    simp [hnone] at ht

/-- A phrase that is outlined does with the trees what its symbol does. -/
theorem keeps_of_outlined {known : Bool} {X : σ} {phrase : Phrase σ} (h : outline.outlined known X phrase = true)
    (hknown : known = true → (Test.sees 0 (outline.guide.sure X)).holds s.rest = true) :
    phrase.wlp (fun Y t u => outline.guide.ready Y t.rest ∧ outline.guide.Advances Y t.rest u.rest ∧
      outline.Keeps Y t u) (outline.Keeps X s) s := by
  have hview : View.Describes (if known then before (outline.guide.sure X) else .blind false false)
      s.rest s.rest := by
    split
    next hk => exact describes_before (hknown hk)
    next => exact View.Describes.start s.rest
  unfold outlined at h
  unfold Keeps
  cases hrole : outline.role X with
  | adds =>
    simp only [hrole, Bool.and_eq_true, Bool.or_eq_true, beq_iff_eq] at h
    obtain ⟨hgeneral, hopening⟩ := h
    by_cases hsure : (gap s.rest = [] ∧ (Test.sees 0 (outline.guide.sure X)).holds s.rest = true) ∧
        outline.yields X ≠ .anything
    · -- at its opening the symbol adds first what it yields
      obtain ⟨⟨hgap, hsees⟩, hne⟩ := hsure
      have hbefore := describes_before hsees
      refine wlp_of_trace phrase (hopening.resolve_left ?_)
        ⟨[], (List.append_nil _).symm, rfl, by simp, hbefore, fun _ => hgap⟩ nofun ?_
      · simp [hne, hbefore.not_dead]
      · rintro e t he ⟨new, hbuilt, hfirst, hshaped, -⟩
        simp only [beq_iff_eq] at he
        exact ⟨new, hbuilt, hshaped, fun _ _ => he ▸ hfirst⟩
    · refine wlp_of_trace phrase (hgeneral.resolve_left (by simp [hview.not_dead]))
        ⟨[], (List.append_nil _).symm, rfl, by simp, hview, nofun⟩ nofun ?_
      rintro e t - ⟨new, hbuilt, -, hshaped, -⟩
      refine ⟨new, hbuilt, hshaped, fun hgap hsees => ?_⟩
      have hany : outline.yields X = .anything := by
        by_contra hne
        exact hsure ⟨⟨hgap, hsees⟩, hne⟩
      rw [hany]
      trivial
  | prolongs =>
    simp only [hrole, Bool.or_eq_true] at h
    by_cases hpre : (∀ tree ∈ s.built, tree.Shaped) ∧ First.expression.Describes s.built
    · refine wlp_of_trace phrase (h.resolve_left (by simp [hview.not_dead]))
        ⟨s.built, rfl, hpre.2, hpre.1, hview, nofun⟩ (fun _ => rfl) ?_
      rintro e t he ⟨new, hbuilt, hfirst, hshaped, -⟩ - -
      simp only [beq_iff_eq] at he
      rw [List.nil_append] at hbuilt
      rw [hbuilt]
      exact ⟨hshaped, he ▸ hfirst⟩
    · exact phrase.wlp_of_forall (fun _ hs hf => absurd ⟨hs, hf⟩ hpre) s
  | wraps =>
    simp only [hrole, Bool.or_eq_true] at h
    by_cases hpre : ∀ tree ∈ s.built, tree.Shaped
    · refine wlp_of_trace phrase (h.resolve_left (by simp [hview.not_dead]))
        ⟨s.built, rfl, trivial, hpre, hview, nofun⟩ (fun _ => rfl) ?_
      rintro e t - ⟨new, hbuilt, -, hshaped, -⟩ -
      rw [List.nil_append] at hbuilt
      rw [hbuilt]
      exact hshaped
    · exact phrase.wlp_of_forall (fun _ hs => absurd hs hpre) s

end Outline

end Grammar

end SwiftTidy

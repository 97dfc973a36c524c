import SwiftTidy.Proofs.Pruning

/-!
# Relocations

A relocation says what becomes of the places of a tree in a tree that has fewer parts: which are still there and
where, with their order and their nesting kept. Taking parts out is a relocation, and so is one relocation after
another. The tokens of the later tree are those of the earlier one that are still there.

A place lies beside a part if only trivia stands between the two. This is a statement about the order of tokens
alone, so it can be carried back from a tree to one that it came from.
-/

namespace SwiftTidy

/-- A token where it has moved to, if it is still there. -/
def Placed.relocate (moved : Path → Option Path) (placed : Placed) : Option Placed :=
  (moved placed.path).map fun path => ⟨path.reverse, placed.token⟩

lemma Placed.relocate_eq_some_iff {moved : Path → Option Path} {a b : Placed} :
    a.relocate moved = some b ↔ moved a.path = some b.path ∧ b.token = a.token := by
  simp only [relocate, Option.map_eq_some_iff]
  constructor
  · rintro ⟨p, hp, rfl⟩
    exact ⟨by simpa using hp, rfl⟩
  · rintro ⟨hp, ht⟩
    exact ⟨b.path, hp, by rw [← ht]; simp⟩

lemma Placed.map_token_relocate (moved : Path → Option Path) (row : List Placed) :
    (row.filterMap (relocate moved)).map token = (row.filter fun placed => (moved placed.path).isSome).map token := by
  induction row with
  | nil => rfl
  | cons placed row ih => cases hmoved : moved placed.path <;> simp [relocate, hmoved, ih]

/-- The second of three paths lies between the other two, in either direction. -/
def Path.Between (p q r : Path) : Prop := Precedes p q ∧ Precedes q r ∨ Precedes r q ∧ Precedes q p

lemma Path.Between.irrefl (p q : Path) : ¬ Between p q q := by
  rintro (⟨-, h⟩ | ⟨h, -⟩) <;> exact Precedes.irrefl q h

lemma Path.Between.trans {p q r s : Path} (hq : Between p q r) (hr : Between p r s) : Between p q s := by
  rcases hq with ⟨hpq, hqr⟩ | ⟨hrq, hqp⟩ <;> rcases hr with ⟨hpr, hrs⟩ | ⟨hsr, hrp⟩
  · exact Or.inl ⟨hpq, hqr.trans hrs⟩
  · exact absurd (hpq.trans hqr) hrp.asymm
  · exact absurd (hrq.trans hqp) hpr.asymm
  · exact Or.inr ⟨hsr.trans hrq, hqp⟩

/-- A relation between the places of two trees that keeps their order, their nesting and their depth. -/
structure Path.Keeps (R : Path → Path → Prop) : Prop where
  precedes : ∀ {p p' q q'}, R p p' → R q q' → (Precedes p' q' ↔ Precedes p q)
  prefix_iff : ∀ {p p' q q'}, R p p' → R q q' → (p' <+: q' ↔ p <+: q)
  length : ∀ {p p'}, R p p' → p'.length = p.length

/-- Where places have gone. -/
def Path.Moves (moved : Path → Option Path) (p p' : Path) : Prop := moved p = some p'

lemma Path.Keeps.bind {moved next : Path → Option Path} (h : Keeps (Moves moved)) (h' : Keeps (Moves next)) :
    Keeps (Moves fun p => (moved p).bind next) where
  precedes hp hq := by
    obtain ⟨p₁, hp₁, hp⟩ := Option.bind_eq_some_iff.1 hp
    obtain ⟨q₁, hq₁, hq⟩ := Option.bind_eq_some_iff.1 hq
    rw [h'.precedes hp hq, h.precedes hp₁ hq₁]
  prefix_iff hp hq := by
    obtain ⟨p₁, hp₁, hp⟩ := Option.bind_eq_some_iff.1 hp
    obtain ⟨q₁, hq₁, hq⟩ := Option.bind_eq_some_iff.1 hq
    rw [h'.prefix_iff hp hq, h.prefix_iff hp₁ hq₁]
  length hp := by
    obtain ⟨p₁, hp₁, hp⟩ := Option.bind_eq_some_iff.1 hp
    rw [h'.length hp, h.length hp₁]

namespace Tree

/-- What becomes of the places of a tree in a tree with fewer parts. -/
structure Relocation (tree later : Tree) (moved : Path → Option Path) : Prop where
  tokens : later.placedTokens = tree.placedTokens.filterMap (Placed.relocate moved)
  nodes : later.nodePaths = tree.nodePaths.filterMap moved
  length : ∀ {p p'}, moved p = some p' → p'.length = p.length
  precedes : ∀ {p p' q q'}, moved p = some p' → moved q = some q' →
    (Path.Precedes p' q' ↔ Path.Precedes p q)
  prefix_iff : ∀ {p p' q q'}, moved p = some p' → moved q = some q' → (p' <+: q' ↔ p <+: q)

namespace Relocation

variable {tree later last : Tree} {moved next : Path → Option Path}

lemma refl (tree : Tree) : tree.Relocation tree some where
  tokens := by
    have hself : Placed.relocate some = some := by
      funext placed
      simp [Placed.relocate]
    rw [hself, List.filterMap_some]
  nodes := by simp
  length h := by simp_all
  precedes hp hq := by simp_all
  prefix_iff hp hq := by simp_all

section

variable (h : tree.Relocation later moved)

include h

lemma leaves_eq :
    later.leaves = (tree.placedTokens.filter fun placed => (moved placed.path).isSome).map Placed.token := by
  rw [← map_token_placedTokens, h.tokens, Placed.map_token_relocate]

lemma leaves_sublist : later.leaves.Sublist tree.leaves := by
  rw [h.leaves_eq, ← map_token_placedTokens tree]
  exact List.filter_sublist.map _

lemma keeps : Path.Keeps (Path.Moves moved) := ⟨h.precedes, h.prefix_iff, h.length⟩

lemma trans (h' : later.Relocation last next) : tree.Relocation last fun p => (moved p).bind next where
  tokens := by
    rw [h'.tokens, h.tokens, List.filterMap_filterMap]
    congr 1
    funext placed
    cases hp : moved placed.path <;> simp [Placed.relocate, hp]
  nodes := by rw [h'.nodes, h.nodes, List.filterMap_filterMap]
  length := (h.keeps.bind h'.keeps).length
  precedes := (h.keeps.bind h'.keeps).precedes
  prefix_iff := (h.keeps.bind h'.keeps).prefix_iff

end

/-- Taking parts out is a relocation. -/
lemma prune {gone : List Path} (h : gone.Nodup) (tree : Tree) :
    tree.Relocation (tree.prune gone) (Path.afterPruning gone) where
  tokens := by
    rw [placedTokens_eq_parts, placedTokens_eq_parts, parts_prune h, List.filterMap_filterMap,
      List.filterMap_filterMap]
    congr 1
    funext part
    obtain ⟨p, t⟩ := part
    cases hp : Path.afterPruning gone p <;> cases t <;>
      simp [Part.pruned?, Part.placed?, Placed.relocate, hp, Tree.prune, token?]
  nodes := by
    rw [nodePaths_eq_parts, nodePaths_eq_parts, parts_prune h, List.filterMap_filterMap,
      List.filterMap_filterMap]
    congr 1
    funext part
    obtain ⟨p, t⟩ := part
    cases hp : Path.afterPruning gone p <;> cases t <;>
      simp [Part.pruned?, Part.nodePath?, hp, Tree.prune, isNode]
  length := Path.length_afterPruning
  precedes := Path.afterPruning_precedes_iff h
  prefix_iff := Path.afterPruning_prefix_iff h

lemma between_iff (h : tree.Relocation later moved) {p p' q q' r r' : Path} (hp : moved p = some p')
    (hq : moved q = some q') (hr : moved r = some r') : Path.Between p' q' r' ↔ Path.Between p q r := by
  rw [Path.Between, Path.Between, h.precedes hp hq, h.precedes hq hr, h.precedes hr hq, h.precedes hq hp]

lemma exists_token (h : tree.Relocation later moved) {b : Placed} (hb : b ∈ later.placedTokens) :
    ∃ a ∈ tree.placedTokens, moved a.path = some b.path ∧ a.token = b.token := by
  rw [h.tokens, List.mem_filterMap] at hb
  obtain ⟨a, ha, hab⟩ := hb
  obtain ⟨hp, ht⟩ := Placed.relocate_eq_some_iff.1 hab
  exact ⟨a, ha, hp, ht.symm⟩

lemma mem_tokens (h : tree.Relocation later moved) {a : Placed} (ha : a ∈ tree.placedTokens) {p : Path}
    (hp : moved a.path = some p) : Placed.mk p.reverse a.token ∈ later.placedTokens := by
  rw [h.tokens, List.mem_filterMap]
  exact ⟨a, ha, Placed.relocate_eq_some_iff.2 ⟨by simpa using hp, rfl⟩⟩

end Relocation

/-! ## What lies beside a part -/

/-- Only trivia stands between a token and the part at a path. -/
def Beside (tree : Tree) (path : Path) (placed : Placed) : Prop :=
  ∃ inner ∈ tree.placedTokens, path <+: inner.path ∧
    ∀ other ∈ tree.placedTokens, Path.Between placed.path other.path inner.path → other.isTrivia = true

variable {a b : Placed} {paths : List Path} {tree : Tree} (hb : b ∈ tree.placedTokens)
  (hinside : ∃ p ∈ paths, p <+: b.path)
  (h : ∀ c ∈ tree.placedTokens, Path.Between a.path c.path b.path → c.isTrivia = true ∨ ∃ p ∈ paths, p <+: c.path)

include hb hinside h

/-- Where only trivia and tokens of some parts stand between a token and one of these parts, only trivia stands between
the token and the nearest of them. -/
lemma exists_nearest :
    ∃ p ∈ paths, ∃ inner ∈ tree.placedTokens, p <+: inner.path ∧
      (inner = b ∨ Path.Between a.path inner.path b.path) ∧
      ∀ other ∈ tree.placedTokens, Path.Between a.path other.path inner.path → other.isTrivia = true := by
  classical
  -- by induction on the number of tokens in between: one of them that is no trivia is nearer
  induction hn : (tree.placedTokens.filter fun c => Path.Between a.path c.path b.path).length
    using Nat.strong_induction_on generalizing b with
  | _ n ih =>
    by_cases htrivia : ∀ c ∈ tree.placedTokens, Path.Between a.path c.path b.path → c.isTrivia = true
    · obtain ⟨p, hp, hwithin⟩ := hinside
      exact ⟨p, hp, b, hb, hwithin, Or.inl rfl, htrivia⟩
    · push Not at htrivia
      obtain ⟨c, hc, hbetween, hct⟩ := htrivia
      have hcin := (h c hc hbetween).resolve_left hct
      have hfewer : (tree.placedTokens.filter fun d => Path.Between a.path d.path c.path).length < n := by
        have hnested : (tree.placedTokens.filter fun d => Path.Between a.path d.path c.path) =
            (tree.placedTokens.filter fun d => Path.Between a.path d.path b.path).filter
              fun d => Path.Between a.path d.path c.path := by
          rw [List.filter_filter]
          refine List.filter_congr fun d _ => ?_
          by_cases hd : Path.Between a.path d.path c.path
          · simp [hd, hd.trans hbetween]
          · simp [hd]
        rw [← hn, hnested, List.length_filter_lt_length_iff_exists]
        exact ⟨c, by simp [hc, hbetween], by simp [Path.Between.irrefl]⟩
      obtain ⟨p, hp, inner, hinner, hwithin, hplace, hgap⟩ :=
        ih _ hfewer hc hcin (fun d hd hbd => h d hd (hbd.trans hbetween)) rfl
      refine ⟨p, hp, inner, hinner, hwithin, Or.inr ?_, hgap⟩
      rcases hplace with rfl | hplace
      · exact hbetween
      · exact hplace.trans hbetween

lemma exists_beside : ∃ p ∈ paths, tree.Beside p a := by
  obtain ⟨p, hp, inner, hinner, hwithin, -, hgap⟩ := exists_nearest hb hinside h
  exact ⟨p, hp, inner, hinner, hwithin, hgap⟩

end Tree

end SwiftTidy

import SwiftTidy.Proofs.Clearing
import SwiftTidy.Proofs.Rewriting
import SwiftTidy.Proofs.Settling
import SwiftTidy.Proofs.SwiftShape
import Mathlib.Data.List.Sort

/-!
# What a pass leaves alone

The tokens outside of the sites of a pass come through it. Where chains are rewritten they even stay in their
places. Where return clauses are taken out, blanks beside them go along, and nothing else does: no comment, no
conditional marker and no significant token.
-/

namespace SwiftTidy

namespace Tree

/-- The tokens of a tree that are in none of the parts at the given paths. -/
def tokensOutside (tree : Tree) (paths : List Path) : List Placed :=
  tree.placedTokens.filter fun placed => paths.all fun path => !path.isPrefixOf placed.path

variable {paths : List Path} {tree : Tree}

lemma mem_tokensOutside {placed : Placed} :
    placed ∈ tree.tokensOutside paths ↔
      tree.sub? placed.path = some (.leaf placed.token) ∧ ∀ path ∈ paths, ¬ path <+: placed.path := by
  rw [tokensOutside, List.mem_filter]
  simp only [List.all_eq_true, Bool.not_eq_true', ← Bool.not_eq_true, List.isPrefixOf_iff_prefix]
  constructor
  · rintro ⟨hmem, hout⟩
    exact ⟨sub?_of_mem_placedTokens hmem, hout⟩
  · rintro ⟨hsub, hout⟩
    have hmem := mem_placedTokens_of_sub? hsub
    have hself : Placed.mk placed.path.reverse placed.token = placed := by simp [Placed.path]
    exact ⟨hself ▸ hmem, hout⟩

lemma eq_of_mem_iff_of_precedes {row row' : List Placed} (hrow : row.Pairwise fun a b => Path.Precedes a.path b.path)
    (hrow' : row'.Pairwise fun a b => Path.Precedes a.path b.path) (h : ∀ placed, placed ∈ row ↔ placed ∈ row') :
    row = row' := by
  have hirrefl : Std.Irrefl fun a b : Placed => Path.Precedes a.path b.path := ⟨fun a => Path.Precedes.irrefl a.path⟩
  have hantisymm : Std.Antisymm fun a b : Placed => Path.Precedes a.path b.path :=
    ⟨fun a b hab hba => absurd hba hab.asymm⟩
  exact hrow.eq_of_mem_iff hrow' h

lemma tokensOutside_eq_of_sub? {later : Tree} (h : ∀ q token, (∀ path ∈ paths, ¬ path <+: q) →
      (later.sub? q = some (.leaf token) ↔ tree.sub? q = some (.leaf token))) :
    later.tokensOutside paths = tree.tokensOutside paths := by
  refine eq_of_mem_iff_of_precedes ((pairwise_placedTokens later).filter _) ((pairwise_placedTokens tree).filter _) ?_
  intro placed
  rw [mem_tokensOutside, mem_tokensOutside]
  constructor
  · rintro ⟨hsub, hout⟩
    exact ⟨(h _ _ hout).1 hsub, hout⟩
  · rintro ⟨hsub, hout⟩
    exact ⟨(h _ _ hout).2 hsub, hout⟩

lemma tokensOutside_congr {others : List Path} (h : ∀ p, p ∈ paths ↔ p ∈ others) :
    tree.tokensOutside paths = tree.tokensOutside others := by
  refine List.filter_congr fun placed _ => ?_
  rw [Bool.eq_iff_iff, List.all_eq_true, List.all_eq_true]
  simp only [h]

lemma face_eq_face_leaf_iff {token : Token} : tree.face = (Tree.leaf token).face ↔ tree = .leaf token := by
  cases tree with
  | leaf other => simp [face, token?, Tree.kind, Tree.children]; grind
  | node kind children => simp [face, token?]

end Tree

open SwiftTidy.Tree

/-- The blanks that went along with the parts that were taken out. -/
lemma Cleared.exists_blanks {tree : Tree} {done : List Path} {pass : Pass} (h : Cleared tree done pass) :
    ∃ blanks : List Placed, (∀ blank ∈ blanks, blank.isBlank = true ∧ ∃ p ∈ done, tree.Beside p blank) ∧
      pass.tree.leaves = ((tree.tokensOutside done).filter (· ∉ blanks)).map Placed.token := by
  refine ⟨(tree.tokensOutside done).filter fun placed => (pass.moved placed.path).isNone, ?_, ?_⟩
  · intro blank hblank
    obtain ⟨hout, hgone⟩ := List.mem_filter.1 hblank
    obtain ⟨hsub, hout⟩ := mem_tokensOutside.1 hout
    rcases h.gone blank.path (by simpa using hgone) with ⟨p, hp, hwithin⟩ | ⟨other, hother, hwithin, hisBlank, hbeside⟩
    · exact absurd hwithin (hout p hp)
    · have hmem := mem_placedTokens_of_sub? hsub
      have hself : Placed.mk blank.path.reverse blank.token = blank := by simp [Placed.path]
      rw [hself] at hmem
      obtain rfl := eq_of_isPrefix hother hmem hwithin
      exact ⟨hisBlank, hbeside⟩
  · rw [h.relocation.leaves_eq, tokensOutside, List.filter_filter]
    congr 1
    refine List.filter_congr fun placed hplaced => ?_
    have hout : (done.all fun path => !path.isPrefixOf placed.path) = true ↔ ∀ p ∈ done, ¬ p <+: placed.path := by
      simp [List.all_eq_true, ← Bool.not_eq_true, List.isPrefixOf_iff_prefix]
    rw [Bool.eq_iff_iff, Bool.and_eq_true, decide_eq_true_eq, List.mem_filter, List.mem_filter, hout]
    constructor
    · intro hsome
      refine ⟨?_, ?_⟩
      · rintro ⟨-, hnone⟩
        simp_all
      · intro p hp hwithin
        simp [h.inside p hp _ hwithin] at hsome
    · rintro ⟨hnot, hout⟩
      by_contra hnone
      exact hnot ⟨⟨hplaced, hout⟩, by simpa using hnone⟩

lemma kind_parse (text : String) : (parse text).kind = .sourceFile := rfl

namespace Rule

/-- The places of the sites of a rule outside the given regions. -/
def sitePaths (rule : Rule) (tree : Tree) (regions : List Region) : List Path :=
  (rule.sites tree regions).map Site.path

variable {path : Path} {rule : Rule} {tree : Tree}

lemma mem_sitePaths {regions : List Region} :
    path ∈ rule.sitePaths tree regions ↔
      path ∈ ((tree.nodePaths.filterMap (rule.siteAt? tree)).filter
        fun site => !Region.covers regions site.anchor).map Site.path :=
  ((sites_perm rule tree regions).map Site.path).mem_iff

lemma mem_trail_sitePaths {regions : List Region} :
    path ∈ rule.trail tree regions ↔ path ∈ rule.sitePaths tree regions := by
  rw [mem_trail, sitePaths, List.mem_map]

lemma mem_sitePaths_nil (hrule : rule.IsBuiltin) (hshaped : tree.Shaped) :
    path ∈ rule.sitePaths tree [] ↔ rule.HasSite tree path := by
  rw [← mem_trail_sitePaths, mem_trail_nil_iff hrule hshaped]

/-- The tree of a text after a pass of a rule outside the given regions. -/
def corrected (rule : Rule) (text : String) (regions : List Region) : Tree :=
  (rule.correct (Source.ofText text) regions).source.tree

end Rule

namespace Rules

lemma Rewritten.tokensOutside_eq {tree : Tree} {done paths : List Path} {pass : Pass} (h : Rewritten tree done pass)
    (hpaths : ∀ p ∈ done, p ∈ paths) : pass.tree.tokensOutside paths = tree.tokensOutside paths := by
  refine tokensOutside_eq_of_sub? ?_
  intro q token hout
  have hface := h.kept q fun p hp => hout p (hpaths p hp)
  have hleaf : ∀ part? : Option Tree,
      part? = some (.leaf token) ↔ part?.map face = some (Tree.leaf token).face := by
    intro part?
    cases part? with
    | none => simp
    | some part => simp [face_eq_face_leaf_iff]
  rw [hleaf, hleaf, hface]

lemma rewritten_correct (source : Source) (hshaped : source.tree.Shaped) (hroot : source.tree.kind ≠ .callExpr)
    (regions : List Region) :
    ∃ done pass, (∀ p, p ∈ done ↔ p ∈ expectation.sitePaths source.tree regions) ∧ Rewritten source.tree done pass ∧
      (expectation.correct source regions).source.tree = pass.tree := by
  obtain ⟨pass, h, -, hcorrect⟩ := rewritten_trail source hshaped hroot regions
  exact ⟨_, pass, fun p => Rule.mem_trail_sitePaths, h, by rw [hcorrect]; rfl⟩

lemma cleared_correct (closures : Bool) (source : Source) (regions : List Region) :
    ∃ done pass, (∀ p, p ∈ done ↔ p ∈ (voidReturn closures).sitePaths source.tree regions) ∧
      Cleared source.tree done pass ∧ ((voidReturn closures).correct source regions).source.tree = pass.tree := by
  obtain ⟨pass, h, -, hcorrect⟩ := cleared_trail closures source regions
  exact ⟨_, pass, fun p => Rule.mem_trail_sitePaths, h, by rw [hcorrect]; rfl⟩

/-- A pass of either rule leaves alone what is outside of its sites. Where it puts in comparisons, they stand at the
outermost sites, and all tokens outside of the sites are in their places. Where it takes out return clauses, the
tokens outside of the sites are still there in order, except for blanks which only trivia parts from a clause. -/
theorem correct_keeps_surroundings (text : String) (regions : List Region) :
    ((expectation.corrected text regions).tokensOutside (expectation.sitePaths (parse text) regions) =
        (parse text).tokensOutside (expectation.sitePaths (parse text) regions) ∧
      ∀ path ∈ expectation.sitePaths (parse text) regions,
        (∀ outer ∈ expectation.sitePaths (parse text) regions, outer <+: path → outer = path) →
        ∃ chain right, Expectation.Chain.right? chain = some right ∧
          (expectation.corrected text regions).sub? path = some (chain.comparison right)) ∧
    ∀ closures, ∃ blanks : List Placed,
      (∀ blank ∈ blanks, blank.isBlank = true ∧
        ∃ path ∈ (voidReturn closures).sitePaths (parse text) regions, (parse text).Beside path blank) ∧
      ((voidReturn closures).corrected text regions).leaves =
        (((parse text).tokensOutside ((voidReturn closures).sitePaths (parse text) regions)).filter
          (· ∉ blanks)).map Placed.token := by
  constructor
  · have hroot : (Source.ofText text).tree.kind ≠ .callExpr := by
      rw [Source.ofText, kind_parse]
      simp
    obtain ⟨done, pass, hdone, h, hcorrect⟩ := rewritten_correct (Source.ofText text) (shaped_parse text) hroot regions
    rw [Rule.corrected, hcorrect]
    refine ⟨h.tokensOutside_eq fun p hp => (hdone p).1 hp, ?_⟩
    intro path hpath houter
    exact h.compared path ((hdone path).2 hpath) fun q hq => houter q ((hdone q).1 hq)
  · intro closures
    obtain ⟨done, pass, hdone, h, hcorrect⟩ := cleared_correct closures (Source.ofText text) regions
    simp only [Source.ofText] at hdone
    obtain ⟨blanks, hblanks, hleaves⟩ := h.exists_blanks
    rw [Rule.corrected, hcorrect, ← tokensOutside_congr hdone]
    refine ⟨blanks, ?_, hleaves⟩
    intro blank hblank
    obtain ⟨hisBlank, p, hp, hbeside⟩ := hblanks blank hblank
    exact ⟨hisBlank, p, (hdone p).1 hp, hbeside⟩

/-- A chain within a chain: a comparison stands in the place of the outer one. -/
theorem correct_keeps_surroundings_nested :
    let text := "func run() -> Void \x7b // runs\n  expect(a).to(equal(expect(b).to(beNil()))) // both\n\x7d\n"
    (∀ path ∈ [[0, 5, 5], [0, 5, 5, 1, 1, 0, 1, 1, 0]], path ∈ expectation.sitePaths (parse text) []) ∧
      ∃ chain right, Expectation.Chain.right? chain = some right ∧
        (expectation.corrected text []).sub? [0, 5, 5] = some (chain.comparison right) := by
  simp only [Rule.mem_sitePaths]
  refine ⟨by decide +kernel, (correct_keeps_surroundings _ []).1.2 [0, 5, 5] ?_ ?_⟩
  · rw [Rule.mem_sitePaths]
    decide +kernel
  · simp only [Rule.mem_sitePaths]
    decide +kernel

end Rules

end SwiftTidy

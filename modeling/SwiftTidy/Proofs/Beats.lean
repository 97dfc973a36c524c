import SwiftTidy.Proofs.Skeleton
import SwiftTidy.Proofs.Unbounded

/-!
# Reading significant tokens

Of the trivia between two significant tokens a grammar learns two things only, so a row of tokens may be thought of
as its significant tokens with pauses between them. Reading such a row builds trees without trivia
(`Reads`).

The pause behind the last token tells nothing, and is left out.
-/

namespace SwiftTidy.Grammar

open Token (significant)

/-! ## Rows -/

/-- What a grammar learns about the trivia between two significant tokens. -/
structure Pause where
  spaced : Bool
  broken : Bool
  deriving DecidableEq

/-- Nothing stands between two tokens. -/
def Pause.none : Pause := ⟨false, false⟩

/-- The significant tokens to come, each with the pause behind it. -/
structure Row where
  lead : Pause
  /-- The tokens and the pauses behind them. -/
  beats : List (Token × Pause)
  deriving DecidableEq

namespace Row

/-- The tokens of a row. -/
def tokens (row : Row) : List Token := row.beats.map Prod.fst

/-- The row with the pause before the first token passed over. -/
def flush (row : Row) : Row := ⟨.none, row.beats⟩

/-- The row behind its first token. -/
def rest : Row → Row
  | ⟨_, []⟩ => ⟨.none, []⟩
  | ⟨_, (_, pause) :: beats⟩ => ⟨pause, beats⟩

@[simp] lemma tokens_flush (row : Row) : row.flush.tokens = row.tokens := rfl

@[simp] lemma beats_flush (row : Row) : row.flush.beats = row.beats := rfl

@[simp] lemma tokens_rest (row : Row) : row.rest.tokens = row.tokens.tail := by
  rcases row with ⟨lead, _ | ⟨⟨token, pause⟩, beats⟩⟩ <;> rfl

@[simp] lemma flush_flush (row : Row) : row.flush.flush = row.flush := rfl

@[simp] lemma rest_flush (row : Row) : row.flush.rest = row.rest := by
  rcases row with ⟨lead, _ | ⟨⟨token, pause⟩, beats⟩⟩ <;> rfl

end Row

/-- The row of the significant tokens among given ones. -/
def rowOf : List Token → Row
  | [] => ⟨.none, []⟩
  | token :: rest =>
    let row := rowOf rest
    if !token.isTrivia then ⟨.none, (token, row.lead) :: row.beats⟩
    else if row.beats.isEmpty then row
    else ⟨⟨true, token.breaksLine || row.lead.broken⟩, row.beats⟩

lemma tokens_rowOf (r : List Token) : (rowOf r).tokens = significant r := by
  induction r with
  | nil => rfl
  | cons token rest ih =>
    rw [rowOf]
    by_cases h : token.isTrivia = true
    · by_cases hempty : (rowOf rest).beats = [] <;> simpa [h, hempty, significant, Row.tokens] using ih
    · simpa [h, significant, Row.tokens] using ih

lemma beats_eq_nil_iff (row : Row) : row.beats = [] ↔ row.tokens = [] := by simp [Row.tokens]

lemma lead_rowOf {r : List Token} (h : significant r ≠ []) :
    (rowOf r).lead = ⟨!(gap r).isEmpty, (gap r).any Token.breaksLine⟩ := by
  induction r with
  | nil => simp [significant] at h
  | cons token rest ih =>
    rw [rowOf]
    by_cases htrivia : token.isTrivia = true
    · have hrest : significant rest ≠ [] := by simpa [significant, htrivia] using h
      have hbeats : (rowOf rest).beats ≠ [] := by rwa [ne_eq, beats_eq_nil_iff, tokens_rowOf]
      simp [htrivia, hbeats, ih hrest, gap]
    · simp [htrivia, gap, Pause.none]

lemma rowOf_pastGap (r : List Token) : rowOf (pastGap r) = (rowOf r).flush := by
  induction r with
  | nil => rfl
  | cons token rest ih =>
    by_cases htrivia : token.isTrivia = true
    · have hpast : pastGap (token :: rest) = pastGap rest := by simp [pastGap, htrivia]
      rw [hpast, ih, rowOf]
      by_cases hempty : (rowOf rest).beats = [] <;> simp [htrivia, hempty, Row.flush]
    · have hpast : pastGap (token :: rest) = token :: rest := by simp [pastGap, htrivia]
      rw [hpast, rowOf]
      simp [htrivia, Row.flush]

lemma rowOf_afterTake (r : List Token) : rowOf (afterTake r) = (rowOf r).rest := by
  induction r with
  | nil => rfl
  | cons token rest ih =>
    by_cases htrivia : token.isTrivia = true
    · have hafter : afterTake (token :: rest) = afterTake rest := by simp [afterTake, pastGap, htrivia]
      rw [hafter, ih, rowOf]
      rcases hrow : rowOf rest with ⟨lead, _ | ⟨⟨first, pause⟩, beats⟩⟩ <;> simp [htrivia, Row.rest]
    · have hafter : afterTake (token :: rest) = rest := by simp [afterTake, pastGap, htrivia]
      rw [hafter, rowOf]
      simp [htrivia, Row.rest]

/-! ## Questions -/

namespace Test

/-- The answer to a question, from the pause before the next token and the tokens to come. -/
def reply (lead : Pause) (tokens : List Token) : Test → Bool
  | .sees n p => tokens[n]?.any fun token => p token.kind
  | .spelled words => tokens.head?.any fun token => words.contains token.text
  | .spaced => lead.spaced
  | .broken => lead.broken
  | .scans p => p tokens
  | .both a b => a.reply lead tokens && b.reply lead tokens
  | .either a b => a.reply lead tokens || b.reply lead tokens
  | .fails a => !a.reply lead tokens

/-- The answer at the end of a row, if it does not depend on the trivia there. -/
def atEnd : Test → Option Bool
  | .sees _ _ => some false
  | .spelled _ => some false
  | .spaced => none
  | .broken => none
  | .scans p => some (p [])
  | .both a b =>
    match a.atEnd, b.atEnd with
    | some false, _ => some false
    | _, some false => some false
    | some true, some true => some true
    | _, _ => none
  | .either a b =>
    match a.atEnd, b.atEnd with
    | some true, _ => some true
    | _, some true => some true
    | some false, some false => some false
    | _, _ => none
  | .fails a => a.atEnd.map (!·)

variable {r : List Token} {test : Test}

lemma reply_of_atEnd {answer : Bool} (h : test.atEnd = some answer) (lead : Pause) : test.reply lead [] = answer := by
  induction test generalizing answer with
  | sees n p => simpa [atEnd, reply] using h
  | spelled words => simpa [atEnd, reply] using h
  | spaced => simp [atEnd] at h
  | broken => simp [atEnd] at h
  | scans p => simpa [atEnd, reply] using h
  | both a b iha ihb =>
    rw [reply]
    cases ha : a.atEnd with
    | none =>
      cases hb : b.atEnd with
      | none => simp [atEnd, ha, hb] at h
      | some y => cases y <;> simp_all [atEnd]
    | some x =>
      cases hb : b.atEnd with
      | none => cases x <;> simp_all [atEnd]
      | some y => cases x <;> cases y <;> simp_all [atEnd]
  | either a b iha ihb =>
    rw [reply]
    cases ha : a.atEnd with
    | none =>
      cases hb : b.atEnd with
      | none => simp [atEnd, ha, hb] at h
      | some y => cases y <;> simp_all [atEnd]
    | some x =>
      cases hb : b.atEnd with
      | none => cases x <;> simp_all [atEnd]
      | some y => cases x <;> cases y <;> simp_all [atEnd]
  | fails a ih =>
    obtain ⟨b, hb, rfl⟩ := Option.map_eq_some_iff.1 h
    rw [reply, ih hb]

lemma holds_eq_reply (test : Test) :
    test.holds r = test.reply ⟨!(gap r).isEmpty, (gap r).any Token.breaksLine⟩ (significant r) := by
  induction test with
  | sees n p => simp [reply]
  | spelled words => simp [reply]
  | spaced => rfl
  | broken => rfl
  | scans p => rfl
  | both a b iha ihb => rw [holds_both, iha, ihb, reply]
  | either a b iha ihb => rw [holds_either, iha, ihb, reply]
  | fails a ih => rw [holds_fails, ih, reply]

lemma holds_eq_reply_rowOf (h : significant r ≠ [] ∨ test.atEnd.isSome = true) :
    test.holds r = test.reply (rowOf r).lead (rowOf r).tokens := by
  rw [holds_eq_reply, tokens_rowOf]
  by_cases hr : significant r = []
  · obtain ⟨answer, hend⟩ := Option.isSome_iff_exists.1 (h.resolve_left (not_not_intro hr))
    rw [hr, reply_of_atEnd hend, reply_of_atEnd hend]
  · rw [lead_rowOf hr]

end Test

/-! ## Reading -/

/-- How far the reading of a row has come. -/
structure Stage where
  /-- The trees built since the last mark, without trivia. -/
  built : List Tree
  row : Row

namespace Stage

/-- The next token moved into the tree. -/
def take (s : Stage) : Stage := ⟨s.built ++ (s.row.tokens.take 1).map Tree.leaf, s.row.rest⟩

/-- Nothing built yet, the pause before the next token passed over. -/
def opened (s : Stage) : Stage := ⟨[], s.row.flush⟩

/-- How many tokens are left. -/
def left (s : Stage) : Nat := s.row.tokens.length

@[simp] lemma left_opened (s : Stage) : s.opened.left = s.left := rfl

@[simp] lemma left_take (s : Stage) : s.take.left = s.left - 1 := by simp [left, take]

end Stage

variable {σ : Type}

/-- Reading without trivia, where at most `n` symbols are open at a time: a phrase leads from one stage to another. -/
inductive Reads (g : σ → Phrase σ) : Nat → Phrase σ → Stage → Stage → Prop where
  | skip (n : Nat) (s : Stage) : Reads g n .skip s s
  | take (n : Nat) (s : Stage) : Reads g n .take s s.take
  | call {n : Nat} {X : σ} {s t : Stage} (h : Reads g n (g X) s t) : Reads g (n + 1) (.call X) s t
  | seq {n : Nat} {first second : Phrase σ} {s m t : Stage} (h₁ : Reads g n first s m) (h₂ : Reads g n second m t) :
      Reads g n (.seq first second) s t
  | yes {n : Nat} {test : Test} {yes no : Phrase σ} {s t : Stage} (htest : test.reply s.row.lead s.row.tokens = true)
      (h : Reads g n yes s t) : Reads g n (.choose test yes no) s t
  | no {n : Nat} {test : Test} {yes no : Phrase σ} {s t : Stage} (htest : test.reply s.row.lead s.row.tokens = false)
      (h : Reads g n no s t) : Reads g n (.choose test yes no) s t
  | node {n : Nat} {kind : Kind} {body : Phrase σ} {s t : Stage} (h : Reads g n body s.opened t) :
      Reads g n (.node kind body) s ⟨s.built ++ [.node kind t.built], t.row⟩
  | mark {n : Nat} {body : Phrase σ} {s t : Stage} (h : Reads g n body s.opened t) :
      Reads g n (.mark body) s ⟨s.built ++ t.built, t.row⟩
  | wrap {n : Nat} {kind : Kind} {body : Phrase σ} {s t : Stage} (h : Reads g n body s t) :
      Reads g n (.wrap kind body) s ⟨[.node kind t.built], t.row⟩

namespace Reads

variable {g : σ → Phrase σ} {n m : Nat} {phrase : Phrase σ} {s t : Stage} (h : Reads g n phrase s t)

include h

lemma mono (hle : n ≤ m) : Reads g m phrase s t := by
  induction h generalizing m with
  | skip => exact .skip _ _
  | take => exact .take _ _
  | call _ ih =>
    obtain ⟨m, rfl⟩ : ∃ k, m = k + 1 := ⟨m - 1, by omega⟩
    exact .call (ih (by omega))
  | seq _ _ ih₁ ih₂ => exact .seq (ih₁ hle) (ih₂ hle)
  | yes htest _ ih => exact .yes htest (ih hle)
  | no htest _ ih => exact .no htest (ih hle)
  | node _ ih => exact .node (ih hle)
  | mark _ ih => exact .mark (ih hle)
  | wrap _ ih => exact .wrap (ih hle)

lemma left_le : t.left ≤ s.left := by
  induction h with
  | skip => exact le_rfl
  | take => simp
  | call _ ih | yes _ _ ih | no _ _ ih | node _ ih | mark _ ih | wrap _ ih => exact ih
  | seq _ _ ih₁ ih₂ => exact ih₂.trans ih₁

lemma leaves_eq : Tree.leavesOf t.built ++ t.row.tokens = Tree.leavesOf s.built ++ s.row.tokens := by
  induction h with
  | skip => rfl
  | take _ s =>
    simp only [Stage.take, Tree.leavesOf_append, Tree.leavesOf_map_leaf, Row.tokens_rest, List.append_assoc]
    rw [← List.drop_one, List.take_append_drop]
  | call _ ih | yes _ _ ih | no _ _ ih => exact ih
  | seq _ _ ih₁ ih₂ => exact ih₂.trans ih₁
  | node _ ih | mark _ ih =>
    simp only [Stage.opened, Tree.leavesOf_nil, List.nil_append, Row.tokens_flush] at ih
    simp [ih]
  | wrap _ ih => simpa using ih

end Reads

/-! ## From rows with trivia to rows without -/

/-- A stage of reading without its trivia. -/
def Progress.stage (s : Progress) : Stage := ⟨Tree.bareOf s.built, rowOf s.rest⟩

@[simp] lemma Progress.stage_start (tokens : List Token) :
    Progress.stage ⟨[], tokens⟩ = ⟨[], rowOf tokens⟩ := by
  simp [stage]

lemma Progress.stage_take (s : Progress) : s.flush.shift.stage = s.stage.take := by
  rw [stage, stage, Stage.take, bareOf_built_shift, bareOf_built_flush, rest_flush, significant_take_pastGap,
    rest_shift, rest_flush, ← afterTake, rowOf_afterTake, tokens_rowOf]

lemma Progress.stage_fresh (s : Progress) : s.flush.fresh.stage = s.stage.opened := by
  simp [stage, Stage.opened, rowOf_pastGap]

/-- Whether no question of a phrase depends on the trivia at the end of a row. -/
def Phrase.endProof : Phrase σ → Bool
  | .skip | .take | .call _ => true
  | .seq first second => first.endProof && second.endProof
  | .choose test yes no => test.atEnd.isSome && yes.endProof && no.endProof
  | .node _ body | .mark body | .wrap _ body => body.endProof

/-- A phrase whose questions do not depend on the trivia at the end of a row, its first one perhaps apart, which is
asked before a token then. -/
def Phrase.EndProof (r : List Token) : Phrase σ → Prop
  | .choose test yes no =>
    (significant r ≠ [] ∨ test.atEnd.isSome = true) ∧ yes.endProof = true ∧ no.endProof = true
  | phrase => phrase.endProof = true

lemma Phrase.endProof_of {phrase : Phrase σ} (h : phrase.endProof = true) (r : List Token) : phrase.EndProof r := by
  cases phrase with
  | choose test yes no =>
    simp only [endProof, Bool.and_eq_true] at h
    exact ⟨.inr h.1.1, h.1.2, h.2⟩
  | _ => exact h

/-- A run is a reading of the significant tokens, for a plan that asks about the trivia at the end of a row
nowhere. -/
lemma Phrase.Runs.reads {g : σ → Phrase σ} (plan : Plan g)
    (hend : ∀ X r, plan.ready X r → (g X).EndProof r) {phrase : Phrase σ} {s t : Progress}
    (h : Runs g phrase s t) {ok : σ → List Token → Prop} (hok : ∀ X r, ok X r → plan.ready X r)
    {post : List Token → Prop} (hw : phrase.wp ok plan.advances post s.rest) (hphrase : phrase.EndProof s.rest) :
    ∃ n, Reads g n phrase s.stage t.stage := by
  have hspec : ∀ X s t, plan.ready X s.rest → Runs g (.call X) s t → plan.advances X s.rest t.rest :=
    fun X s t hready => plan.advances_of_runs hready
  induction h generalizing post ok with
  | skip s => exact ⟨0, .skip 0 _⟩
  | take s =>
    rw [Progress.stage_take]
    exact ⟨0, .take 0 _⟩
  | @call X s t _ ih =>
    have hready := hok X s.rest hw.1
    obtain ⟨n, hreads⟩ := ih (fun Y r h => h.1) (plan.sound X s.rest hready) (hend X s.rest hready)
    exact ⟨n + 1, .call hreads⟩
  | @seq first second s m t h₁ _ ih₁ ih₂ =>
    simp only [EndProof, endProof, Bool.and_eq_true] at hphrase
    obtain ⟨n₁, hreads₁⟩ := ih₁ hok hw (endProof_of hphrase.1 s.rest)
    have hmid := h₁.left (fun X s t h => hspec X s t (hok X s.rest h)) hw
    obtain ⟨n₂, hreads₂⟩ := ih₂ hok hmid (endProof_of hphrase.2 m.rest)
    exact ⟨max n₁ n₂, .seq (hreads₁.mono (le_max_left _ _)) (hreads₂.mono (le_max_right _ _))⟩
  | @yes test yes no s t htest _ ih =>
    obtain ⟨n, hreads⟩ := ih hok (hw.1 htest) (endProof_of hphrase.2.1 s.rest)
    rw [Test.holds_eq_reply_rowOf hphrase.1] at htest
    exact ⟨n, .yes htest hreads⟩
  | @no test yes no s t htest _ ih =>
    obtain ⟨n, hreads⟩ := ih hok (hw.2 htest) (endProof_of hphrase.2.2 s.rest)
    rw [Test.holds_eq_reply_rowOf hphrase.1] at htest
    exact ⟨n, .no htest hreads⟩
  | @node kind body s t _ ih =>
    have hbody : body.endProof = true := hphrase
    obtain ⟨n, hreads⟩ := ih hok hw (endProof_of hbody _)
    rw [Progress.stage_fresh] at hreads
    have hnode : Reads g n (.node kind body) s.stage _ := .node hreads
    exact ⟨n, by simpa [Progress.stage] using hnode⟩
  | @mark body s t _ ih =>
    have hbody : body.endProof = true := hphrase
    obtain ⟨n, hreads⟩ := ih hok hw (endProof_of hbody _)
    rw [Progress.stage_fresh] at hreads
    have hmark : Reads g n (.mark body) s.stage _ := .mark hreads
    exact ⟨n, by simpa [Progress.stage] using hmark⟩
  | @wrap kind body s t _ ih =>
    have hbody : body.endProof = true := hphrase
    obtain ⟨n, hreads⟩ := ih hok hw (endProof_of hbody _)
    have hwrap : Reads g n (.wrap kind body) s.stage _ := .wrap hreads
    exact ⟨n, by simpa [Progress.stage] using hwrap⟩

/-! ## Reading Swift -/

/-- Reading Swift without trivia, where at most `n` symbols are open at a time. -/
abbrev LeadsIn : Nat → Phrase Symbol → Stage → Stage → Prop := Reads swift

lemma endProof_swift {X : Symbol} {r : List Token} (hready : swiftGuide.ready X r) : (swift X).EndProof r := by
  cases X with
  | tupleElement =>
    have hsome : (Test.someToken).holds r = true := hready rfl
    refine ⟨.inl ?_, rfl, rfl⟩
    rintro hr
    simp [Test.someToken, hr] at hsome
  | inGroup opening closing depth => cases depth <;> exact Phrase.endProof_of rfl r
  | suffixes inCondition => cases inCondition <;> exact Phrase.endProof_of rfl r
  | _ => exact Phrase.endProof_of rfl r

/-- The tree of a row of tokens, without its trivia, is read from its significant tokens. -/
lemma exists_reads (tokens : List Token) :
    ∃ n t, LeadsIn n (.call (.statements .fileEnd)) ⟨[], rowOf tokens⟩ t ∧ t.row.tokens = [] ∧
      (parseTokens tokens).bare = .node .sourceFile t.built := by
  have hready : swiftGuide.ready (.statements .fileEnd) tokens := fun hneeds => by
    simp [swiftGuide, Symbol.needsOpening] at hneeds
  have hruns := swiftPlan.runs_derive (s := ⟨[], tokens⟩) hready (effort_file tokens)
  have hw : (Phrase.call (.statements .fileEnd) : Phrase Symbol).wp swiftPlan.ready swiftPlan.advances
      (fun _ => True) tokens := ⟨hready, fun _ _ => trivial⟩
  obtain ⟨n, hreads⟩ := hruns.reads swiftPlan (fun X r => endProof_swift) (fun X r => id) hw rfl
  rw [Progress.stage_start] at hreads
  refine ⟨n, _, hreads, ?_, ?_⟩
  · exact (tokens_rowOf _).trans (significant_rest_file tokens)
  · rw [parseTokens, Tree.bare_node, Progress.bareOf_built_flush]
    rfl

end SwiftTidy.Grammar

import SwiftTidy.Proofs.Skeleton
import SwiftTidy.Proofs.Unbounded

/-!
# Operands

What does a reader of an expression make of its tokens? An operand is read as one tree: what it begins with, and then
suffix after suffix (`runs_suffixes_iff`). An operand with all brackets closed ends by itself (`Tree.stands`), and in
the head of a statement it is read as elsewhere if no closure is put behind it (`runs_unary_head`).
-/

namespace SwiftTidy

namespace Grammar

open Phrase Test

variable {s t u : Progress}

/-! ## Taking runs apart -/

namespace Phrase

variable {σ : Type} {g : σ → Phrase σ} {X : σ} {first second yes no body otherwise : Phrase σ}
  {phrases : List (Phrase σ)} {rest : List (Test × Phrase σ)} {test : Test} {kind : Kind}

lemma runs_skip_iff : Runs g .skip s t ↔ t = s := by
  constructor
  · intro h
    cases h
    rfl
  · rintro rfl
    exact .skip t

lemma runs_take_iff : Runs g .take s t ↔ t = s.flush.shift := by
  constructor
  · intro h
    cases h
    rfl
  · rintro rfl
    exact .take s

lemma runs_call_iff : Runs g (.call X) s t ↔ Runs g (g X) s t := by
  constructor
  · intro h
    cases h with
    | call h => exact h
  · exact .call

lemma runs_seq_iff : Runs g (.seq first second) s t ↔ ∃ u, Runs g first s u ∧ Runs g second u t := by
  constructor
  · intro h
    cases h with
    | seq h₁ h₂ => exact ⟨_, h₁, h₂⟩
  · rintro ⟨u, h₁, h₂⟩
    exact .seq h₁ h₂

lemma runs_choose_iff : Runs g (.choose test yes no) s t ↔
    test.holds s.rest = true ∧ Runs g yes s t ∨ test.holds s.rest = false ∧ Runs g no s t := by
  constructor
  · intro h
    cases h with
    | yes htest h => exact .inl ⟨htest, h⟩
    | no htest h => exact .inr ⟨htest, h⟩
  · rintro (⟨htest, h⟩ | ⟨htest, h⟩)
    · exact .yes htest h
    · exact .no htest h

lemma runs_node_iff : Runs g (.node kind body) s t ↔
    ∃ u, Runs g body s.flush.fresh u ∧ t = ⟨s.flush.built ++ [.node kind u.built], u.rest⟩ := by
  constructor
  · intro h
    cases h with
    | node h => exact ⟨_, h, rfl⟩
  · rintro ⟨u, h, rfl⟩
    exact .node h

lemma runs_mark_iff : Runs g (.mark body) s t ↔
    ∃ u, Runs g body s.flush.fresh u ∧ t = ⟨s.flush.built ++ u.built, u.rest⟩ := by
  constructor
  · intro h
    cases h with
    | mark h => exact ⟨_, h, rfl⟩
  · rintro ⟨u, h, rfl⟩
    exact .mark h

lemma runs_wrap_iff : Runs g (.wrap kind body) s t ↔
    ∃ u, Runs g body s u ∧ t = ⟨[.node kind u.built], u.rest⟩ := by
  constructor
  · intro h
    cases h with
    | wrap h => exact ⟨_, h, rfl⟩
  · rintro ⟨u, h, rfl⟩
    exact .wrap h

lemma runs_inOrder_nil : Runs g (inOrder []) s t ↔ t = s := runs_skip_iff

lemma runs_inOrder_cons : Runs g (inOrder (first :: phrases)) s t ↔
    ∃ u, Runs g first s u ∧ Runs g (inOrder phrases) u t := runs_seq_iff

lemma runs_inOrder_singleton : Runs g (inOrder [first]) s t ↔ Runs g first s t := by
  simp only [runs_inOrder_cons, runs_inOrder_nil, exists_eq_right']

lemma runs_opt_iff : Runs g (opt test body) s t ↔
    test.holds s.rest = true ∧ Runs g body s t ∨ test.holds s.rest = false ∧ t = s := by
  rw [opt, runs_choose_iff, runs_skip_iff]

lemma runs_firstOf_iff {cases : List (Test × Phrase σ)} : Runs g (firstOf cases otherwise) s t ↔
    Runs g (((cases.find? fun case => case.1.holds s.rest).map Prod.snd).getD otherwise) s t := by
  induction cases with
  | nil => rfl
  | cons case cases ih =>
    change Runs g (.choose case.1 case.2 (firstOf cases otherwise)) s t ↔ _
    rw [runs_choose_iff, ih]
    by_cases htest : case.1.holds s.rest = true
    · simp [htest]
    · simp [htest]

lemma Runs.tokens_eq {phrase : Phrase σ} (h : Runs g phrase s t) : t.tokens = s.tokens := by
  induction h with
  | skip => rfl
  | take => simp
  | call _ ih | yes _ _ ih | no _ _ ih => exact ih
  | seq _ _ ih₁ ih₂ => rw [ih₂, ih₁]
  | @node _ _ s _ _ ih | @mark _ s _ _ ih =>
    rw [← Progress.tokens_flush s]
    simp only [Progress.tokens, Progress.fresh, Tree.leavesOf_nil, List.nil_append] at ih
    simp [Progress.tokens, ih]
  | wrap _ ih => simpa [Progress.tokens] using ih

end Phrase

/-! ## Trivia before a token -/

variable {inCondition : Bool} {rest r : List Token} {lead : List Token} {token : Token}

lemma gap_append (hlead : ∀ token ∈ lead, token.isTrivia = true) : gap (lead ++ r) = lead ++ gap r :=
  List.takeWhile_append_of_pos hlead

lemma pastGap_append (hlead : ∀ token ∈ lead, token.isTrivia = true) : pastGap (lead ++ r) = pastGap r :=
  List.dropWhile_append_of_pos hlead

lemma gap_cons (htoken : token.isTrivia = false) : gap (token :: r) = [] := by simp [gap, htoken]

lemma pastGap_of_gap (h : gap r = []) : pastGap r = r := by simpa [h] using gap_append_pastGap r

lemma isTrivia_of_pastGap (h : pastGap r = token :: rest) : token.isTrivia = false := by
  have hgap := gap_pastGap r
  rw [h] at hgap
  by_contra htrivia
  simp [gap, htrivia] at hgap

lemma isTrivia_gap : ∀ token ∈ gap r, token.isTrivia = true := fun _ => List.mem_takeWhile_imp

lemma flush_append (hlead : ∀ token ∈ lead, token.isTrivia = true) (hr : gap r = []) (built : List Tree) :
    (⟨built, lead ++ r⟩ : Progress).flush = ⟨built ++ lead.map .leaf, r⟩ := by
  rw [Progress.flush, gap_append hlead, pastGap_append hlead, hr, List.append_nil, pastGap_of_gap hr]

lemma flush_of_gap (hr : gap r = []) (built : List Tree) : (⟨built, r⟩ : Progress).flush = ⟨built, r⟩ := by
  rw [Progress.flush, pastGap_of_gap hr, hr, List.map_nil, List.append_nil]

lemma runs_take (hlead : ∀ token ∈ lead, token.isTrivia = true) (htoken : token.isTrivia = false)
    (built : List Tree) :
    Runs swift .take ⟨built, lead ++ token :: r⟩ ⟨built ++ (lead ++ [token]).map .leaf, r⟩ := by
  have hruns := Runs.take (g := swift) ⟨built, lead ++ token :: r⟩
  rw [flush_append hlead (gap_cons htoken)] at hruns
  simpa [Progress.shift] using hruns

lemma runs_take_next (htoken : token.isTrivia = false) (built : List Tree) :
    Runs swift .take ⟨built, token :: r⟩ ⟨built ++ [.leaf token], r⟩ :=
  runs_take (List.forall_mem_nil _) htoken built

/-! ## Suffixes -/

/-- Whether a brace opens a closure. -/
def closureHere (inCondition : Bool) : Test := if inCondition then never else sameLine .lbrace

/-- A member of what stands before comes. -/
def memberHere : Test := .both (next .dot) (.sees 1 fun kind => kind == .numberLiteral || kind.isName)

/-- The suffixes of an operand: what they are told by, what node they make and what they are read by. -/
def suffixForms (inCondition : Bool) : List (Test × Kind × Phrase Symbol) :=
  [(memberHere, .memberExpr, inOrder [take, take]),
   (sameLine .lparen, .callExpr,
     inOrder [call (.argumentList .rparen), opt (closureHere inCondition) (call .closure)]),
   (joined .lbracket, .callExpr, call (.argumentList .rbracket)),
   (closureHere inCondition, .callExpr, call .closure),
   (unwrapMark, .postfixExpr, take)]

/-- The suffix that comes next. -/
def suffixForm? (inCondition : Bool) (r : List Token) : Option (Test × Kind × Phrase Symbol) :=
  (suffixForms inCondition).find? fun form => form.1.holds r

/-- A suffix is read. -/
def Suffixed (inCondition : Bool) (s t : Progress) : Prop :=
  ∃ form, suffixForm? inCondition s.rest = some form ∧ Runs swift (.wrap form.2.1 form.2.2) s t

/-- No suffix comes. -/
def Bare (inCondition : Bool) (r : List Token) : Prop := suffixForm? inCondition r = none

lemma bare_iff : Bare inCondition r ↔ ∀ form ∈ suffixForms inCondition, form.1.holds r = false := by
  simp [Bare, suffixForm?, List.find?_eq_none]

lemma holds_eq_false_of_sees {p q : Kind → Bool} (h : (Test.sees 0 p).holds r = true)
    (hpq : ∀ kind, p kind = true → q kind = false) : (Test.sees 0 q).holds r = false := by
  rw [holds_sees] at h ⊢
  obtain ⟨token, htoken, hkind⟩ := (Option.any_eq_true _ _).1 h
  rw [htoken, Option.any_some, hpq _ hkind]

/-- A suffix is told by its first token. -/
lemma bare_of_next (h : (nextAny [.dot, .lparen, .lbracket, .lbrace, .question, .bang]).holds r = false) :
    Bare inCondition r := by
  have hnot (p : Kind → Bool)
      (hp : ∀ kind, p kind = true → [Kind.dot, .lparen, .lbracket, .lbrace, .question, .bang].contains kind = true) :
      (Test.sees 0 p).holds r = false := by
    rw [Bool.eq_false_iff]
    intro hholds
    obtain ⟨token, htoken, hkind⟩ := (Option.any_eq_true _ _).1 (holds_sees 0 p r ▸ hholds)
    rw [nextAny, holds_sees, htoken, Option.any_some, hp _ hkind] at h
    cases h
  have hnext (kind : Kind) (hkind : [Kind.dot, .lparen, .lbracket, .lbrace, .question, .bang].contains kind = true) :
      (next kind).holds r = false := hnot _ fun _ heq => beq_iff_eq.1 heq ▸ hkind
  have hmark : (nextAny [.question, .bang]).holds r = false := hnot _ fun kind hkind => by simp_all
  have hclosure : (closureHere inCondition).holds r = false := by
    cases inCondition with
    | false => rw [closureHere, if_neg (by simp), sameLine, holds_both, hnext _ rfl, Bool.false_and]
    | true => simp [closureHere, never]
  rw [bare_iff]
  simp [suffixForms, memberHere, sameLine, joined, unwrapMark, hclosure, hnext, hmark, -holds_sees]

lemma swift_suffixes : swift (.suffixes inCondition) =
    firstOf ((suffixForms inCondition).map fun form =>
      (form.1, inOrder [wrap form.2.1 form.2.2, call (.suffixes inCondition)])) skip := by
  cases inCondition <;> rfl

lemma runs_suffixes_cases : Runs swift (.call (.suffixes inCondition)) s t ↔
    (∃ u, Suffixed inCondition s u ∧ Runs swift (.call (.suffixes inCondition)) u t) ∨
      Bare inCondition s.rest ∧ t = s := by
  rw [runs_call_iff, swift_suffixes, runs_firstOf_iff, List.find?_map]
  change Runs swift ((((suffixForm? inCondition s.rest).map _).map Prod.snd).getD skip) s t ↔ _
  cases hform : suffixForm? inCondition s.rest with
  | none => simp [Suffixed, Bare, hform, runs_skip_iff]
  | some form => simp [Suffixed, Bare, hform, runs_inOrder_cons, runs_inOrder_nil]

lemma length_lt_of_call {X : Symbol} (h : Runs swift (.call X) s t)
    (hs : (swiftGuide.opening X).holds s.rest = true) : t.rest.length < s.rest.length :=
  (swiftPlan.advances_of_runs (fun _ => hs) h).length_lt hs

lemma exists_cons_of_holds {p : Kind → Bool} (h : (Test.sees 0 p).holds r = true) :
    ∃ token rest, pastGap r = token :: rest ∧ p token.kind = true := by
  rw [holds_sees, ← significant_pastGap] at h
  cases hrest : pastGap r with
  | nil =>
    rw [hrest] at h
    cases h
  | cons token rest =>
    rw [hrest, Token.significant, List.filter_cons_of_pos (by simp [isTrivia_of_pastGap hrest])] at h
    exact ⟨token, rest, rfl, h⟩

lemma holds_nextAny {kind : Kind} (kinds : List Kind) (hkind : kinds.contains kind = true)
    (h : (next kind).holds r = true) : (nextAny kinds).holds r = true := by
  rw [next, holds_sees] at h
  obtain ⟨token, htoken, heq⟩ := (Option.any_eq_true _ _).1 h
  rw [nextAny, holds_sees, htoken, Option.any_some, beq_iff_eq.1 heq, hkind]

lemma holds_shift {p : Kind → Bool} (h : (Test.sees 1 p).holds s.rest = true) :
    (Test.sees 0 p).holds s.flush.shift.rest = true := by
  rw [holds_sees, ← significant_pastGap] at h
  cases hrest : pastGap s.rest with
  | nil =>
    rw [hrest] at h
    cases h
  | cons token rest =>
    have hflush : s.flush.rest = token :: rest := hrest
    have hsolid := isTrivia_of_pastGap hrest
    rw [hrest, Token.significant, List.filter_cons_of_pos (by simp [hsolid])] at h
    rw [holds_sees, Progress.shift, hflush]
    exact h

lemma length_lt_of_take (hs : someToken.holds s.rest = true) (h : Runs swift .take s t) :
    t.rest.length < s.rest.length := by
  obtain rfl := runs_take_iff.1 h
  obtain ⟨token, rest, hrest, -⟩ := exists_cons_of_holds hs
  have hle := (pastGap_suffix s.rest).length_le
  simp only [Progress.shift, Progress.flush, hrest] at hle ⊢
  exact hle

lemma holds_someToken {p : Kind → Bool} (h : (Test.sees 0 p).holds r = true) : someToken.holds r = true := by
  rw [holds_sees] at h
  rw [someToken, holds_sees]
  obtain ⟨token, htoken, -⟩ := (Option.any_eq_true _ _).1 h
  rw [htoken]
  rfl

lemma Suffixed.length_lt (h : Suffixed inCondition s t) : t.rest.length < s.rest.length := by
  obtain ⟨form, hform, hruns⟩ := h
  obtain ⟨u, hbody, rfl⟩ := runs_wrap_iff.1 hruns
  have htest := List.find?_some hform
  have hmem := List.mem_of_find?_eq_some hform
  change u.rest.length < s.rest.length
  have hbrace (hhere : (closureHere inCondition).holds s.rest = true) :
      someToken.holds s.rest = true := by
    cases inCondition with
    | false => exact holds_someToken (Bool.and_eq_true_iff.1 hhere).1
    | true => simp [closureHere, never] at hhere
  simp only [suffixForms, List.mem_cons, List.not_mem_nil, or_false] at hmem
  obtain rfl | rfl | rfl | rfl | rfl := hmem
  · obtain ⟨m, htake, hrest⟩ := runs_inOrder_cons.1 hbody
    have hlt := length_lt_of_take (holds_someToken (Bool.and_eq_true_iff.1 htest).1) htake
    have hle := hrest.rest_suffix.length_le
    omega
  · obtain ⟨m, hcall, hrest⟩ := runs_inOrder_cons.1 hbody
    have hlt := length_lt_of_call hcall (holds_someToken (Bool.and_eq_true_iff.1 htest).1)
    have hle := hrest.rest_suffix.length_le
    omega
  · exact length_lt_of_call hbody (holds_someToken (Bool.and_eq_true_iff.1 htest).1)
  · exact length_lt_of_call hbody (hbrace htest)
  · exact length_lt_of_take (holds_someToken (Bool.and_eq_true_iff.1 htest).1) hbody

/-- Suffixes are read one after the other, until none comes. -/
lemma runs_suffixes_iff : Runs swift (.call (.suffixes inCondition)) s t ↔
    Relation.ReflTransGen (Suffixed inCondition) s t ∧ Bare inCondition t.rest := by
  constructor
  · intro h
    have hall : ∀ n (s : Progress), s.rest.length < n → Runs swift (.call (.suffixes inCondition)) s t →
        Relation.ReflTransGen (Suffixed inCondition) s t ∧ Bare inCondition t.rest := by
      intro n
      induction n with
      | zero => exact fun s hs => absurd hs (Nat.not_lt_zero _)
      | succ n ih =>
        intro s hs h
        obtain ⟨u, hstep, h⟩ | ⟨hbare, rfl⟩ := runs_suffixes_cases.1 h
        · have hlt := hstep.length_lt
          obtain ⟨hsteps, hbare⟩ := ih u (by omega) h
          exact ⟨.head hstep hsteps, hbare⟩
        · exact ⟨.refl, hbare⟩
    exact hall _ s (Nat.lt_succ_self _) h
  · rintro ⟨hsteps, hbare⟩
    induction hsteps using Relation.ReflTransGen.head_induction_on with
    | refl => exact runs_suffixes_cases.2 (.inr ⟨hbare, rfl⟩)
    | head hstep _ ih => exact runs_suffixes_cases.2 (.inl ⟨_, hstep, ih⟩)

lemma built_prefix_of_node {kind : Kind} {body : Phrase Symbol} (h : Runs swift (.node kind body) s t) :
    s.built <+: t.built := by
  obtain ⟨u, -, rfl⟩ := runs_node_iff.1 h
  exact (List.prefix_append _ _).trans (List.prefix_append _ _)

lemma built_prefix_of_take (h : Runs swift .take s t) : s.built <+: t.built := by
  obtain rfl := runs_take_iff.1 h
  obtain ⟨tokens, htokens⟩ := Progress.exists_leaves_take s
  rw [htokens]
  exact List.prefix_append _ _

/-- A suffix makes a node of what stands before it. -/
lemma Suffixed.exists_node (h : Suffixed inCondition s t) :
    ∃ kind more, t.built = [.node kind (s.built ++ more)] ∧ [Kind.memberExpr, .callExpr, .postfixExpr].contains kind := by
  obtain ⟨form, hform, hruns⟩ := h
  obtain ⟨u, hbody, rfl⟩ := runs_wrap_iff.1 hruns
  have hmem := List.mem_of_find?_eq_some hform
  have hfore : s.built <+: u.built ∧ [Kind.memberExpr, .callExpr, .postfixExpr].contains form.2.1 := by
    simp only [suffixForms, List.mem_cons, List.not_mem_nil, or_false] at hmem
    obtain rfl | rfl | rfl | rfl | rfl := hmem
    · obtain ⟨m, hfirst, hsecond⟩ := runs_inOrder_cons.1 hbody
      exact ⟨(built_prefix_of_take hfirst).trans (built_prefix_of_take (runs_inOrder_singleton.1 hsecond)), rfl⟩
    · obtain ⟨m, hlist, hclosure⟩ := runs_inOrder_cons.1 hbody
      refine ⟨(built_prefix_of_node (runs_call_iff.1 hlist)).trans ?_, rfl⟩
      rw [runs_inOrder_singleton, runs_opt_iff] at hclosure
      obtain ⟨-, hclosure⟩ | ⟨-, rfl⟩ := hclosure
      · exact built_prefix_of_node (runs_call_iff.1 hclosure)
      · exact List.prefix_rfl
    · exact ⟨built_prefix_of_node (runs_call_iff.1 hbody), rfl⟩
    · exact ⟨built_prefix_of_node (runs_call_iff.1 hbody), rfl⟩
    · exact ⟨built_prefix_of_take hbody, rfl⟩
  obtain ⟨⟨more, hmore⟩, hkind⟩ := hfore
  exact ⟨_, more, by rw [hmore], hkind⟩

lemma built_suffixed {kind : Kind} {children : List Tree} {r₀ : List Token}
    (h : Relation.ReflTransGen (Suffixed inCondition) ⟨[.node kind children], r₀⟩ t) :
    ∃ kind children, t.built = [.node kind children] := by
  obtain rfl | ⟨s, -, hlast⟩ := Relation.ReflTransGen.cases_tail h
  · exact ⟨_, _, rfl⟩
  · obtain ⟨kind, more, hbuilt, -⟩ := hlast.exists_node
    exact ⟨kind, _, hbuilt⟩

lemma tokens_suffixed (h : Relation.ReflTransGen (Suffixed inCondition) s t) : t.tokens = s.tokens := by
  induction h with
  | refl => rfl
  | tail _ hlast ih =>
    obtain ⟨form, -, hruns⟩ := hlast
    exact hruns.tokens_eq.trans ih

lemma length_suffixed (h : Relation.ReflTransGen (Suffixed inCondition) s t) : t.rest.length ≤ s.rest.length := by
  induction h with
  | refl => exact le_rfl
  | tail _ hlast ih => exact hlast.length_lt.le.trans ih

/-- In the node of the last suffix, what was there before it comes first. -/
lemma exists_last_suffix {kind kind' : Kind} {children : List Tree} {r₀ : List Token} {first : Tree} {more : List Tree}
    (h : Relation.ReflTransGen (Suffixed inCondition) ⟨[.node kind children], r₀⟩ t)
    (ht : t.built = [.node kind' (first :: more)]) (hkind : kind = kind' → first ∉ children) :
    ∃ s, s.built = [first] ∧ Relation.ReflTransGen (Suffixed inCondition) ⟨[.node kind children], r₀⟩ s := by
  obtain rfl | ⟨s, hsteps, hlast⟩ := Relation.ReflTransGen.cases_tail h
  · obtain ⟨rfl, rfl⟩ := Tree.node.inj (List.singleton_inj.1 ht)
    exact absurd List.mem_cons_self (hkind rfl)
  · obtain ⟨kind₁, children₁, hs⟩ := built_suffixed hsteps
    obtain ⟨kind₂, more₂, hbuilt, -⟩ := hlast.exists_node
    rw [hs, ht] at hbuilt
    obtain ⟨-, hrow⟩ := Tree.node.inj (List.singleton_inj.1 hbuilt)
    obtain ⟨rfl, -⟩ := List.cons.inj hrow
    exact ⟨s, hs, hsteps⟩

/-- Which suffix comes is told by the first question that is answered with yes. -/
lemma suffixForm?_eq_some {form : Test × Kind × Phrase Symbol} (h : suffixForm? inCondition r = some form) :
    (memberHere.holds r = true ∧ form = (memberHere, .memberExpr, inOrder [take, take])) ∨
    memberHere.holds r = false ∧
      (((sameLine .lparen).holds r = true ∧ form = (sameLine .lparen, .callExpr,
        inOrder [call (.argumentList .rparen), opt (closureHere inCondition) (call .closure)])) ∨
      (sameLine .lparen).holds r = false ∧
        (((joined .lbracket).holds r = true ∧ form = (joined .lbracket, .callExpr, call (.argumentList .rbracket))) ∨
        (joined .lbracket).holds r = false ∧
          (((closureHere inCondition).holds r = true ∧ form = (closureHere inCondition, .callExpr, call .closure)) ∨
          (closureHere inCondition).holds r = false ∧ unwrapMark.holds r = true ∧
            form = (unwrapMark, .postfixExpr, take)))) := by
  simp only [suffixForm?, suffixForms, List.find?_cons, List.find?_nil] at h
  split at h
  next hmember => exact .inl ⟨hmember, (Option.some.inj h).symm⟩
  next hmember =>
    refine .inr ⟨by simpa using hmember, ?_⟩
    split at h
    next hcall => exact .inl ⟨hcall, (Option.some.inj h).symm⟩
    next hcall =>
      refine .inr ⟨by simpa using hcall, ?_⟩
      split at h
      next hsubscript => exact .inl ⟨hsubscript, (Option.some.inj h).symm⟩
      next hsubscript =>
        refine .inr ⟨by simpa using hsubscript, ?_⟩
        split at h
        next hclosure => exact .inl ⟨hclosure, (Option.some.inj h).symm⟩
        next hclosure =>
          refine .inr ⟨by simpa using hclosure, ?_⟩
          split at h
          next hmark => exact ⟨hmark, (Option.some.inj h).symm⟩
          next => cases h

/-! ## Operands -/

/-- What an operand without an operator in front may begin with. -/
def primaryForms : List (Test × Phrase Symbol) :=
  [(nextAny [.ident, .initKw], node .identExpr take),
   (nextAny [.numberLiteral, .stringLiteral, .trueKw, .falseKw, .nilKw], node .literalExpr take),
   (next .lparen, node .tupleExpr <| call (.arguments .rparen)), (next .lbracket, call .arrayExpr),
   (next .lbrace, call .closure), (next .dot, node .memberExpr <| inOrder [take, take])]

/-- What the next token begins. -/
def primaryForm? (r : List Token) : Option (Test × Phrase Symbol) := primaryForms.find? fun form => form.1.holds r

lemma runs_primary_iff : Runs swift (.call .primary) s t ↔
    Runs swift (((primaryForm? s.rest).map Prod.snd).getD skip) s t := by
  rw [runs_call_iff]
  exact runs_firstOf_iff

lemma exists_primaryForm (hr : (nextAny primaryKinds).holds r = true) : ∃ form, primaryForm? r = some form := by
  rw [nextAny, holds_sees] at hr
  obtain ⟨token, htoken, hkind⟩ := (Option.any_eq_true _ _).1 hr
  rw [← Option.isSome_iff_exists, primaryForm?, List.find?_isSome]
  simp only [primaryForms, List.mem_cons, List.not_mem_nil, or_false, exists_eq_or_imp, exists_eq_left, nextAny, next,
    holds_sees, htoken, Option.any_some]
  have hall : ∀ kind : Kind, primaryKinds.contains kind = true → [Kind.ident, .initKw].contains kind = true ∨
      [Kind.numberLiteral, .stringLiteral, .trueKw, .falseKw, .nilKw].contains kind = true ∨ (kind == .lparen) = true ∨
        (kind == .lbracket) = true ∨ (kind == .lbrace) = true ∨ (kind == .dot) = true := by
    intro kind
    cases kind <;> decide
  exact hall _ hkind

/-- An operand begins with one node. -/
lemma exists_primary (hgap : gap r = []) (hr : (nextAny primaryKinds).holds r = true)
    (h : Runs swift (.call .primary) ⟨[], r⟩ t) : ∃ kind children, t.built = [.node kind children] ∧
      kind ≠ .callExpr ∧ (kind = .memberExpr → ∀ child ∈ children, child.isNode = false) := by
  obtain ⟨form, hform⟩ := exists_primaryForm hr
  rw [runs_primary_iff, hform] at h
  have hnode {kind : Kind} {body : Phrase Symbol} (h : Runs swift (.node kind body) ⟨[], r⟩ t) :
      ∃ u, Runs swift body ⟨[], r⟩ u ∧ t.built = [.node kind u.built] := by
    rw [runs_node_iff, flush_of_gap hgap] at h
    obtain ⟨u, hu, rfl⟩ := h
    exact ⟨u, hu, rfl⟩
  have hother {kind : Kind} {body : Phrase Symbol} (hcall : kind ≠ .callExpr) (hmember : kind ≠ .memberExpr)
      (h : Runs swift (.node kind body) ⟨[], r⟩ t) : ∃ kind children, t.built = [.node kind children] ∧
        kind ≠ .callExpr ∧ (kind = .memberExpr → ∀ child ∈ children, child.isNode = false) := by
    obtain ⟨u, -, hbuilt⟩ := hnode h
    exact ⟨kind, u.built, hbuilt, hcall, fun heq => absurd heq hmember⟩
  have hmem := List.mem_of_find?_eq_some hform
  simp only [primaryForms, List.mem_cons, List.not_mem_nil, or_false] at hmem
  obtain rfl | rfl | rfl | rfl | rfl | rfl := hmem
  · exact hother (by simp) (by simp) h
  · exact hother (by simp) (by simp) h
  · exact hother (by simp) (by simp) h
  · exact hother (by simp) (by simp) (runs_call_iff.1 h)
  · exact hother (by simp) (by simp) (runs_call_iff.1 h)
  · obtain ⟨u, hu, hbuilt⟩ := hnode h
    obtain ⟨m, hfirst, hsecond⟩ := runs_inOrder_cons.1 hu
    obtain rfl := runs_take_iff.1 hfirst
    obtain rfl := runs_take_iff.1 (runs_inOrder_singleton.1 hsecond)
    obtain ⟨dot, hdot⟩ := Progress.exists_leaves_take ⟨[], r⟩
    obtain ⟨name, hname⟩ := Progress.exists_leaves_take (Progress.shift (Progress.flush ⟨[], r⟩))
    refine ⟨_, _, hbuilt, by simp, fun _ child hchild => ?_⟩
    rw [hname, hdot, List.nil_append, ← List.map_append] at hchild
    obtain ⟨token, -, rfl⟩ := List.mem_map.1 hchild
    rfl

lemma swift_unary : swift (.unary inCondition) =
    .choose (nextAny [.operator, .bang]) (.node .prefixExpr <| inOrder [take, call (.unary inCondition)])
      (.choose (nextAny [.tryKw, .awaitKw])
        (.node .tryExpr <| inOrder [take, opt unwrapMark take, call (.expr inCondition)])
        (.call (.postfixed inCondition))) := rfl

lemma swift_postfixed : swift (.postfixed inCondition) =
    .mark (opt (nextAny primaryKinds) <| inOrder [call .primary, call (.suffixes inCondition)]) := rfl

/-- An operand is read the same whatever was built before it. -/
lemma runs_unary_iff : Runs swift (.call (.unary inCondition)) s t ↔
    ∃ u, Runs swift (.call (.unary inCondition)) s.flush.fresh u ∧ t = ⟨s.flush.built ++ u.built, u.rest⟩ := by
  have hsees (kinds : List Kind) : (nextAny kinds).holds s.flush.fresh.rest = (nextAny kinds).holds s.rest := by
    simp [nextAny, Progress.fresh, significant_pastGap]
  have hflush : s.flush.fresh.flush = s.flush.fresh := flush_of_gap (gap_pastGap _) []
  have hfresh : s.flush.fresh.fresh = s.flush.fresh := rfl
  have hbuilt : s.flush.fresh.built = [] := rfl
  simp only [runs_call_iff, swift_unary, runs_choose_iff, runs_node_iff, swift_postfixed, runs_mark_iff, hsees, hflush,
    hfresh, hbuilt, List.nil_append]
  constructor
  · rintro (⟨hfore, u, hu, rfl⟩ | ⟨hfore, ⟨htry, u, hu, rfl⟩ | ⟨htry, u, hu, rfl⟩⟩)
    · exact ⟨_, .inl ⟨hfore, u, hu, rfl⟩, rfl⟩
    · exact ⟨_, .inr ⟨hfore, .inl ⟨htry, u, hu, rfl⟩⟩, rfl⟩
    · exact ⟨_, .inr ⟨hfore, .inr ⟨htry, u, hu, rfl⟩⟩, rfl⟩
  · rintro ⟨_, ⟨hfore, u, hu, rfl⟩ | ⟨hfore, ⟨htry, u, hu, rfl⟩ | ⟨htry, u, hu, rfl⟩⟩, rfl⟩
    · exact .inl ⟨hfore, u, hu, rfl⟩
    · exact .inr ⟨hfore, .inl ⟨htry, u, hu, rfl⟩⟩
    · exact .inr ⟨hfore, .inr ⟨htry, u, hu, rfl⟩⟩

/-- What stands behind an operator is an operand again. -/
lemma runs_unary_prefixed {operator : Token} (hoperator : [Kind.operator, .bang].contains operator.kind = true) :
    Runs swift (.call (.unary inCondition)) ⟨[], operator :: r⟩ t ↔
      ∃ u, Runs swift (.call (.unary inCondition)) ⟨[], pastGap r⟩ u ∧
        t = ⟨[.node .prefixExpr (.leaf operator :: ((gap r).map .leaf ++ u.built))], u.rest⟩ := by
  have hsolid : operator.isTrivia = false := by
    have hkinds : operator.kind = .operator ∨ operator.kind = .bang := by simpa using hoperator
    rcases hkinds with h | h <;> rw [Token.isTrivia, h] <;> rfl
  have htest : (nextAny [.operator, .bang]).holds (operator :: r) = true := by
    rw [nextAny, holds_sees, Token.significant, List.filter_cons_of_pos (by simp [hsolid])]
    simpa using hoperator
  have hflush := flush_of_gap (gap_cons (r := r) hsolid) []
  have hbody {u : Progress} : Runs swift (inOrder [take, call (.unary inCondition)]) ⟨[], operator :: r⟩ u ↔
      ∃ w, Runs swift (.call (.unary inCondition)) ⟨[], pastGap r⟩ w ∧
        u = ⟨.leaf operator :: ((gap r).map .leaf ++ w.built), w.rest⟩ := by
    rw [runs_inOrder_cons]
    simp only [runs_take_iff, exists_eq_left, runs_inOrder_singleton, hflush]
    exact runs_unary_iff
  rw [runs_call_iff, swift_unary, runs_choose_iff, runs_node_iff, hflush]
  simp only [htest, true_and, Bool.true_eq_false, false_and, or_false]
  constructor
  · rintro ⟨u, hu, rfl⟩
    obtain ⟨w, hw, rfl⟩ := hbody.1 hu
    exact ⟨w, hw, rfl⟩
  · rintro ⟨w, hw, rfl⟩
    exact ⟨_, hbody.2 ⟨w, hw, rfl⟩, rfl⟩

/-- What stands behind an operator or a keyword, or a node with suffixes: an operand is one of these, if it is there. -/
lemma runs_unary_cases (hgap : gap r = []) (h : Runs swift (.call (.unary inCondition)) ⟨[], r⟩ t) :
    (∃ operator rest, r = operator :: rest ∧ [Kind.operator, .bang].contains operator.kind = true) ∨
      (∃ children, t.built = [.node .tryExpr children]) ∨ t.built = [] ∨
      ∃ kind children r₀, Runs swift (.call .primary) ⟨[], r⟩ ⟨[.node kind children], r₀⟩ ∧
        (nextAny primaryKinds).holds r = true ∧ kind ≠ .callExpr ∧
        (kind = .memberExpr → ∀ child ∈ children, child.isNode = false) ∧
        Relation.ReflTransGen (Suffixed inCondition) ⟨[.node kind children], r₀⟩ t ∧ Bare inCondition t.rest := by
  have hflush := flush_of_gap hgap []
  rw [runs_call_iff, swift_unary, runs_choose_iff, runs_choose_iff, runs_node_iff, runs_node_iff, runs_call_iff,
    swift_postfixed, runs_mark_iff, hflush] at h
  obtain ⟨hfore, -⟩ | ⟨hfore, ⟨htry, u, hu, rfl⟩ | ⟨htry, u, hu, rfl⟩⟩ := h
  · obtain ⟨operator, rest, hrest, hoperator⟩ := exists_cons_of_holds hfore
    exact .inl ⟨operator, rest, (pastGap_of_gap hgap).symm.trans hrest, hoperator⟩
  · exact .inr (.inl ⟨_, rfl⟩)
  · rw [runs_opt_iff, runs_inOrder_cons] at hu
    obtain ⟨hkinds, m, hprimary, hsuffixes⟩ | ⟨-, rfl⟩ := hu
    · rw [runs_inOrder_singleton, runs_suffixes_iff] at hsuffixes
      obtain ⟨kind, children, hbuilt, hcall, hmember⟩ := exists_primary hgap hkinds hprimary
      obtain ⟨built, r₀⟩ := m
      obtain rfl : built = _ := hbuilt
      exact .inr (.inr (.inr ⟨kind, children, r₀, hprimary, hkinds, hcall, hmember, hsuffixes⟩))
    · exact .inr (.inr (.inl rfl))

/-- In a call of a member of an operand, the operand was read first. -/
lemma exists_suffixed_subject {subject : Tree} {dots more : List Tree} (hgap : gap r = [])
    (h : Runs swift (.call (.unary inCondition)) ⟨[], r⟩ t) (hsubject : subject.isNode = true)
    (ht : t.built = [.node .callExpr (.node .memberExpr (subject :: dots) :: more)]) :
    Bare inCondition t.rest ∧ ∃ kind children r₀ s, Runs swift (.call .primary) ⟨[], r⟩ ⟨[.node kind children], r₀⟩ ∧
      (nextAny primaryKinds).holds r = true ∧
      Relation.ReflTransGen (Suffixed inCondition) ⟨[.node kind children], r₀⟩ s ∧ s.built = [subject] := by
  obtain ⟨operator, rest, rfl, hoperator⟩ | ⟨children, hbuilt⟩ | hbuilt |
    ⟨kind, children, r₀, hprimary, hkinds, hcall, hmember, hsteps, hbare⟩ := runs_unary_cases hgap h
  · obtain ⟨u, -, rfl⟩ := (runs_unary_prefixed hoperator).1 h
    simp at ht
  · simp [hbuilt] at ht
  · simp [hbuilt] at ht
  · obtain ⟨s₁, hs₁, hsteps⟩ := exists_last_suffix hsteps ht fun heq => absurd heq hcall
    obtain ⟨s₂, hs₂, hsteps⟩ := exists_last_suffix hsteps hs₁ fun heq hmem => by
      rw [hmember heq _ hmem] at hsubject
      cases hsubject
    exact ⟨hbare, kind, children, r₀, s₂, hprimary, hkinds, hsteps, hs₂⟩

/-- An operand with suffixes behind it, in any of its two readings. -/
lemma runs_unary_of_suffixed {tree : Tree} {r₀ : List Token} (hgap : gap r = [])
    (hkinds : (nextAny primaryKinds).holds r = true) (hprimary : Runs swift (.call .primary) ⟨[], r⟩ ⟨[tree], r₀⟩)
    (hsuffixes : Relation.ReflTransGen (Suffixed inCondition) ⟨[tree], r₀⟩ t) (hbare : Bare inCondition t.rest) :
    Runs swift (.call (.unary inCondition)) ⟨[], r⟩ t := by
  have hflush := flush_of_gap hgap []
  have hnot (kinds : List Kind) (hall : kinds.all (fun kind => !primaryKinds.contains kind) = true) :
      (nextAny kinds).holds r = false := by
    refine holds_eq_false_of_sees hkinds fun kind hkind => ?_
    by_contra hmem
    have hother := List.all_eq_true.1 hall kind (by simpa using hmem)
    rw [hkind] at hother
    cases hother
  rw [runs_call_iff, swift_unary]
  refine .no (hnot _ (by decide)) (.no (hnot _ (by decide)) (.call ?_))
  rw [swift_postfixed, runs_mark_iff, hflush]
  exact ⟨t, .yes hkinds (.seq hprimary (.seq (runs_suffixes_iff.2 ⟨hsuffixes, hbare⟩) (.skip _))), rfl⟩

lemma built_unary (hgap : gap r = []) (h : Runs swift (.call (.unary inCondition)) ⟨[], r⟩ t) :
    t.built = [] ∨ ∃ kind children, t.built = [.node kind children] := by
  obtain ⟨operator, rest, rfl, hoperator⟩ | ⟨children, hbuilt⟩ | hbuilt | ⟨kind, children, r₀, -, -, -, -, hsteps, -⟩ :=
    runs_unary_cases hgap h
  · obtain ⟨u, -, rfl⟩ := (runs_unary_prefixed hoperator).1 h
    exact .inr ⟨_, _, rfl⟩
  · exact .inr ⟨_, _, hbuilt⟩
  · exact .inl hbuilt
  · exact .inr (built_suffixed hsteps)

/-! ## Brackets -/

/-- The brackets that end something. -/
def closers : List Kind := [.rparen, .rbracket, .rbrace]

/-- A test fails where a token of the given kind comes next. -/
def Test.bars (kind : Kind) : Test → Bool
  | .sees 0 p => !p kind
  | .both a b => a.bars kind || b.bars kind
  | .either a b => a.bars kind && b.bars kind
  | _ => false

lemma Test.next_of_bars {kind : Kind} {test : Test} (h : test.bars kind = true) (hr : test.holds r = true) :
    (next kind).holds r = false := by
  induction test with
  | sees n p =>
    cases n with
    | succ n => cases h
    | zero =>
      refine holds_eq_false_of_sees hr fun other hother => beq_eq_false_iff_ne.2 ?_
      rintro rfl
      simp [bars, hother] at h
  | both a b iha ihb =>
    obtain ⟨ha, hb⟩ := Bool.and_eq_true_iff.1 hr
    exact (Bool.or_eq_true_iff.1 h).elim (iha · ha) (ihb · hb)
  | either a b iha ihb =>
    obtain ⟨ha, hb⟩ := Bool.and_eq_true_iff.1 h
    exact (Bool.or_eq_true_iff.1 hr).elim (iha ha) (ihb hb)
  | _ => cases h

/-- Symbols that add no closing bracket to what is built. -/
def Symbol.spares : Symbol → Bool
  | .argumentItems _ | .arrayItems | .statements _ | .statement | .error | .returnStmt | .ifStmt | .guardStmt
  | .whileStmt | .forStmt | .switchStmt | .declaration | .modifiers | .function | .initializer | .subscript | .typeDecl
  | .variable | .importDecl | .typealias | .enumCase | .expr _ | .exprSuffixes _ | .unary _ | .postfixed _
  | .suffixes _ | .primary | .arrayExpr | .closure | .closureSignature | .parameters | .parameter => true
  | _ => false

/-- Whether a phrase adds no token of a kind to what is built, where it may be known that none comes next. -/
def Phrase.spares (kind : Kind) : Bool → Phrase Symbol → Bool
  | _, .skip | _, .node _ _ | _, .wrap _ _ => true
  | known, .take => known
  | _, .call X => X.spares
  | known, .seq first second => first.spares kind known && second.spares kind false
  | known, .choose test yes no => yes.spares kind (known || test.bars kind) && no.spares kind known
  | known, .mark body => body.spares kind known

lemma spares_swift {kind : Kind} (hkind : closers.contains kind = true) {X : Symbol} (hX : X.spares = true) :
    (swift X).spares kind false = true := by
  obtain rfl | rfl | rfl : kind = .rparen ∨ kind = .rbracket ∨ kind = .rbrace := by simpa [closers] using hkind
  all_goals cases X <;> first | rfl | cases hX

lemma Phrase.Runs.leaf_mem {phrase : Phrase Symbol} (h : Runs swift phrase s t) {known : Bool} {token : Token}
    (hkind : closers.contains token.kind = true) (hspares : phrase.spares token.kind known = true)
    (hknown : known = true → (next token.kind).holds s.rest = false) (hmem : .leaf token ∈ t.built) :
    .leaf token ∈ s.built := by
  have htrivia : token.isTrivia = false := by
    have hall : closers.all (fun kind => !kind.isTrivia) = true := by decide
    have hnot := List.all_eq_true.1 hall _ (List.contains_iff_mem.1 hkind)
    rwa [Bool.not_eq_true'] at hnot
  have hflush {s : Progress} (hmem : .leaf token ∈ s.flush.built) : .leaf token ∈ s.built := by
    refine (List.mem_append.1 hmem).resolve_right fun hgap => ?_
    obtain ⟨other, hother, heq⟩ := List.mem_map.1 hgap
    rw [← Tree.leaf.inj heq, isTrivia_gap other hother] at htrivia
    cases htrivia
  have hsees (s : Progress) : (next token.kind).holds s.flush.fresh.rest = (next token.kind).holds s.rest := by
    simp [next, Progress.fresh, significant_pastGap]
  induction h generalizing known with
  | skip => exact hmem
  | take s =>
    obtain rfl : known = true := hspares
    cases hrest : s.flush.rest with
    | nil =>
      rw [Progress.shift, hrest] at hmem
      exact hflush hmem
    | cons first rest =>
      rw [Progress.shift, hrest] at hmem
      refine hflush ((List.mem_append.1 hmem).resolve_right fun hlast => ?_)
      obtain rfl := Tree.leaf.inj (List.mem_singleton.1 hlast)
      have hnext := hknown rfl
      change pastGap s.rest = _ at hrest
      rw [next, holds_sees, ← significant_pastGap, hrest] at hnext
      simp [Token.significant, htrivia] at hnext
  | @call X _ _ _ ih => exact ih (spares_swift hkind hspares) (by simp) hmem
  | seq _ _ ih₁ ih₂ =>
    obtain ⟨hfirst, hsecond⟩ := Bool.and_eq_true_iff.1 hspares
    exact ih₁ hfirst hknown (ih₂ hsecond (by simp) hmem)
  | yes htest _ ih =>
    refine ih (Bool.and_eq_true_iff.1 hspares).1 (fun hknown' => ?_) hmem
    exact (Bool.or_eq_true_iff.1 hknown').elim hknown fun hbars => next_of_bars hbars htest
  | no _ _ ih => exact ih (Bool.and_eq_true_iff.1 hspares).2 hknown hmem
  | node => exact hflush ((List.mem_append.1 hmem).resolve_right (by simp))
  | @mark _ s _ _ ih =>
    refine (List.mem_append.1 hmem).elim hflush fun hinner => ?_
    cases ih hspares (fun h => (hsees s).trans (hknown h)) hinner
  | wrap => simp at hmem

end Grammar

namespace Tree

/-! ## Where an operand ends -/

/-- Whether a node that begins with a bracket ends with one. -/
def isShut : Tree → Bool
  | .leaf _ => true
  | .node _ children => children.getLast?.any fun last => !last.isNode && Grammar.closers.contains last.kind

mutual

/-- Whether an operand ends by itself, whatever comes behind it: all brackets of it are closed, and an operator in front
has something behind it. In the head of a statement there may be no closure behind a call. -/
def stands (inHead : Bool) : Tree → Bool
  | .leaf _ => false
  | .node kind children =>
    match kind with
    | .identExpr | .literalExpr => true
    | .tupleExpr | .arrayExpr | .closureExpr => (Tree.node kind children).isShut
    | .memberExpr => standsFirst inHead children && children.tail.any (!·.isTriviaLeaf)
    | .postfixExpr => standsFirst inHead children
    | .callExpr => standsFirst inHead children && children.tail.all fun child =>
        child.isShut && !(inHead && child.isNode && child.kind == .closureExpr)
    | .prefixExpr => standsLast inHead children
    | _ => false

/-- Whether a row begins with an operand that ends by itself, or with a token. -/
def standsFirst (inHead : Bool) : List Tree → Bool
  | [] => false
  | tree :: _ => !tree.isNode || tree.stands inHead

/-- Whether a row ends with an operand that ends by itself. -/
def standsLast (inHead : Bool) : List Tree → Bool
  | [] => false
  | [tree] => tree.stands inHead
  | _ :: rest => standsLast inHead rest

end

lemma stands_first {inHead : Bool} {kind : Kind} {first : Tree} {more : List Tree}
    (h : (Tree.node kind (first :: more)).stands inHead = true)
    (hkind : [Kind.memberExpr, .callExpr, .postfixExpr].contains kind = true) (hfirst : first.isNode = true) :
    first.stands inHead = true := by
  have hkinds : kind = .memberExpr ∨ kind = .callExpr ∨ kind = .postfixExpr := by simpa using hkind
  obtain rfl | rfl | rfl := hkinds
  · simpa [standsFirst, hfirst] using (Bool.and_eq_true_iff.1 h).1
  · simpa [standsFirst, hfirst] using (Bool.and_eq_true_iff.1 h).1
  · simpa [stands, standsFirst, hfirst] using h

mutual

lemma stands_of_head (tree : Tree) (h : tree.stands true = true) : tree.stands false = true := by
  cases tree with
  | leaf token => cases h
  | node kind children =>
    unfold stands at h ⊢
    split at h
    · rfl
    · rfl
    · exact h
    · exact h
    · exact h
    · rw [Bool.and_eq_true] at h ⊢
      exact ⟨standsFirst_of_head children h.1, h.2⟩
    · exact standsFirst_of_head children h
    · rw [Bool.and_eq_true, List.all_eq_true] at h ⊢
      refine ⟨standsFirst_of_head children h.1, fun child hchild => ?_⟩
      have hshut := (Bool.and_eq_true_iff.1 (h.2 child hchild)).1
      rw [hshut]
      rfl
    · exact standsLast_of_head children h
    · cases h

lemma standsFirst_of_head (row : List Tree) (h : standsFirst true row = true) : standsFirst false row = true := by
  cases row with
  | nil => cases h
  | cons tree rest =>
    rw [standsFirst, Bool.or_eq_true] at h ⊢
    exact h.imp id (stands_of_head tree)

lemma standsLast_of_head (row : List Tree) (h : standsLast true row = true) : standsLast false row = true := by
  match row with
  | [] => cases h
  | [tree] => exact stands_of_head tree h
  | _ :: second :: rest => exact standsLast_of_head (second :: rest) h

end

end Tree

namespace Grammar

open Phrase Test

variable {s t : Progress} {r : List Token} {inCondition : Bool}

/-! ## Operands in the head of a statement -/

/-- In the head of a statement a suffix that is no closure is read the same. -/
lemma Suffixed.head {first : Tree} (h : Suffixed false s t) (hs : s.built = [first])
    (ht : ∀ tree ∈ t.built, tree.stands true = true) : Suffixed true s t := by
  obtain ⟨form, hform, hruns⟩ := h
  obtain ⟨u, hbody, rfl⟩ := runs_wrap_iff.1 hruns
  have hnever : (closureHere true).holds s.rest = false := by simp [closureHere, never]
  -- a closure that is put behind a call would be among its children
  have hclosure {m : Progress} (hm : s.built <+: m.built) (h : Runs swift (.call .closure) m u)
      (hkind : form.2.1 = .callExpr) : False := by
    obtain ⟨v, -, rfl⟩ := runs_node_iff.1 (runs_call_iff.1 h)
    obtain ⟨more, hmore⟩ := hm
    have hstands := ht _ (List.mem_singleton_self _)
    rw [hkind] at hstands
    simp [Tree.stands, Progress.flush, ← hmore, hs, Tree.kind, Tree.isNode] at hstands
  obtain ⟨hmember, rfl⟩ | ⟨hmember, ⟨hcall, rfl⟩ | ⟨hcall, ⟨hsubscript, rfl⟩ | ⟨hsubscript, ⟨hhere, rfl⟩ |
    ⟨hhere, hmark, rfl⟩⟩⟩⟩ := suffixForm?_eq_some hform
  · exact ⟨_, by simp [suffixForm?, suffixForms, hmember], hruns⟩
  · refine ⟨(sameLine .lparen, .callExpr, inOrder [call (.argumentList .rparen), opt (closureHere true) (call .closure)]),
      by simp [suffixForm?, suffixForms, hmember, hcall], ?_⟩
    obtain ⟨m, hlist, hopt⟩ := runs_inOrder_cons.1 hbody
    rw [runs_inOrder_singleton, runs_opt_iff] at hopt
    obtain ⟨-, hopt⟩ | ⟨-, rfl⟩ := hopt
    · exact (hclosure (built_prefix_of_node (runs_call_iff.1 hlist)) hopt rfl).elim
    · exact .wrap (.seq hlist (.seq (.no (by simp [closureHere, never]) (.skip _)) (.skip _)))
  · exact ⟨_, by simp [suffixForm?, suffixForms, hmember, hcall, hsubscript], hruns⟩
  · exact (hclosure List.prefix_rfl hbody rfl).elim
  · exact ⟨_, by simp [suffixForm?, suffixForms, hmember, hcall, hsubscript, hnever, hmark], hruns⟩

lemma Bare.head (h : Bare false r) : Bare true r := by
  rw [bare_iff] at h ⊢
  simp only [suffixForms, List.forall_mem_cons, List.not_mem_nil, IsEmpty.forall_iff, implies_true, and_true] at h ⊢
  exact ⟨h.1, h.2.1, h.2.2.1, by simp [closureHere, never], h.2.2.2.2⟩

/-- So are suffixes of an operand that ends by itself there. -/
lemma suffixed_head {kind : Kind} {children : List Tree} {r₀ : List Token}
    (h : Relation.ReflTransGen (Suffixed false) ⟨[.node kind children], r₀⟩ t)
    (ht : ∀ tree ∈ t.built, tree.stands true = true) :
    Relation.ReflTransGen (Suffixed true) ⟨[.node kind children], r₀⟩ t := by
  induction h with
  | refl => exact .refl
  | @tail s t hsteps hlast ih =>
    obtain ⟨kind₁, children₁, hs⟩ := built_suffixed hsteps
    obtain ⟨kind₂, more, hbuilt, hkind⟩ := hlast.exists_node
    rw [hs, List.singleton_append] at hbuilt
    have hstands := Tree.stands_first (ht _ (hbuilt ▸ List.mem_singleton_self _)) hkind rfl
    exact (ih (by simp [hs, hstands])).tail (hlast.head hs ht)

/-- The operand behind an operator ends by itself if the whole does. -/
lemma exists_of_standsLast {inHead : Bool} {token : Token} {lead : List Token} {built : List Tree}
    (hbuilt : built = [] ∨ ∃ kind children, built = [.node kind children])
    (h : (Tree.node .prefixExpr (.leaf token :: (lead.map .leaf ++ built))).stands inHead = true) :
    ∃ last, built = [last] ∧ last.stands inHead = true := by
  have hlast (row : List Tree) (tree : Tree) : Tree.standsLast inHead (row ++ [tree]) = tree.stands inHead := by
    induction row with
    | nil => rfl
    | cons first row ih =>
      rw [List.cons_append, ← ih]
      cases row <;> rfl
  have hnone (tokens : List Token) : Tree.standsLast inHead (tokens.map .leaf) = false := by
    induction tokens with
    | nil => rfl
    | cons token tokens ih =>
      cases tokens with
      | nil => rfl
      | cons => exact ih
  change Tree.standsLast inHead _ = true at h
  obtain rfl | ⟨kind, children, rfl⟩ := hbuilt
  · rw [List.append_nil, ← List.map_cons, hnone] at h
    cases h
  · rw [← List.cons_append, hlast] at h
    exact ⟨_, rfl, h⟩

/-- In the head of a statement an operand that ends by itself there is read as elsewhere. -/
lemma runs_unary_head {tree : Tree} {rest : List Token} (hgap : gap r = [])
    (h : Runs swift (.call (.unary false)) ⟨[], r⟩ ⟨[tree], rest⟩) (htree : tree.stands true = true) :
    Runs swift (.call (.unary true)) ⟨[], r⟩ ⟨[tree], rest⟩ := by
  induction hn : r.length using Nat.strong_induction_on generalizing r tree with
  | _ n ih =>
    obtain ⟨operator, r, rfl, hoperator⟩ | ⟨children, hbuilt⟩ | hbuilt | ⟨kind, children, r₀, hprimary, hkinds, -, -, hsteps, hbare⟩ :=
      runs_unary_cases hgap h
    · obtain ⟨u, hu, heq⟩ := (runs_unary_prefixed hoperator).1 h
      obtain ⟨htree', rfl⟩ := Progress.mk.inj heq
      obtain rfl := List.singleton_inj.1 htree'
      obtain ⟨last, hlast, hstands⟩ := exists_of_standsLast (built_unary (gap_pastGap _) hu) htree
      obtain ⟨built, rest⟩ := u
      obtain rfl : built = [last] := hlast
      have hlt : (pastGap r).length < n := by
        have hle := (pastGap_suffix r).length_le
        simp only [List.length_cons] at hn
        omega
      exact (runs_unary_prefixed hoperator).2 ⟨_, ih _ hlt (gap_pastGap _) hu hstands rfl, rfl⟩
    · obtain rfl := List.singleton_inj.1 hbuilt
      cases htree
    · cases hbuilt
    · exact runs_unary_of_suffixed hgap hkinds hprimary (suffixed_head hsteps (by simpa using htree)) hbare.head

end Grammar

end SwiftTidy

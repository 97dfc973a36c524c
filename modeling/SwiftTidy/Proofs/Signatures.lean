import SwiftTidy.Proofs.Lifting

/-!
# Signatures without their return clauses

A return clause that is taken out of a signature leaves the parameters and the effects before it.
They are read as they were: the parameters end by themselves, and the effects where no other effect
comes (`Graft.effects_lift`). So the signature without the clause is read in the place of the
signature (`Graft.shed_lift`), and by induction over the run everything else is read as before
(`Graft.follows_of_runs`).
-/

namespace SwiftTidy

namespace Grammar

open Phrase Test

variable {n : Nat} {s t u m₀ m₁ m₂ m₃ : Progress} {r : List Token} {kinds : List Kind}

/-! ## What is added -/

/-- Tokens and nodes of the given kinds come behind what is built, and trivia does not come last. -/
def Puts (kinds : List Kind) (s t : Progress) : Prop :=
  ∃ new, t.built = s.built ++ new ∧ (∀ tree ∈ new, tree.isNode = true → tree.kind ∈ kinds) ∧
    new.getLast?.all (!·.isTriviaLeaf) = true

namespace Puts

lemma refl (kinds : List Kind) (s : Progress) : Puts kinds s s := ⟨[], by simp, by simp, rfl⟩

lemma trans (h : Puts kinds s t) (h' : Puts kinds t u) : Puts kinds s u := by
  obtain ⟨new, hnew, hkinds, hlast⟩ := h
  obtain ⟨more, hmore, hkinds', hlast'⟩ := h'
  refine ⟨new ++ more, by simp [hmore, hnew],
    fun tree htree => (List.mem_append.1 htree).elim (hkinds tree) (hkinds' tree), ?_⟩
  obtain rfl | ⟨front, last, rfl⟩ := List.eq_nil_or_concat' more
  · simpa using hlast
  · simpa using hlast'

lemma flush (tree : Tree) (htree : tree.isNode = true → tree.kind ∈ kinds)
    (hsolid : tree.isTriviaLeaf = false) (r : List Token) :
    Puts kinds s ⟨s.flush.built ++ [tree], r⟩ := by
  refine ⟨(gap s.rest).map .leaf ++ [tree], by simp [Progress.flush], fun other hother => ?_,
    by simp [hsolid]⟩
  obtain hgap | hlast := List.mem_append.1 hother
  · obtain ⟨token, -, rfl⟩ := List.mem_map.1 hgap
    intro hnode
    cases hnode
  · rwa [List.mem_singleton.1 hlast]

end Puts

/-- Symbols that add tokens, and nodes of the given kinds. -/
def Symbol.puts (kinds : List Kind) : Symbol → Bool
  | .attributeNodes | .attributeNode => kinds.contains .attributeNode
  | .parameterClause => kinds.contains .parameterClause
  | .effects | .group | .inGroup _ _ _ => true
  | _ => false

/-- Whether a phrase adds tokens that are there, and nodes of the given kinds, where it may be known
that a token comes. -/
def Phrase.puts (kinds : List Kind) : Bool → Phrase Symbol → Bool
  | _, .skip => true
  | known, .take => known
  | _, .call X => X.puts kinds
  | known, .seq first second => first.puts kinds known && second.puts kinds false
  | known, .choose test yes no =>
    yes.puts kinds (known || test.atEnd == some false) && no.puts kinds known
  | _, .node kind _ => kinds.contains kind
  | _, .mark _ | _, .wrap _ _ => false

lemma puts_swift {X : Symbol} (h : X.puts kinds = true) : (swift X).puts kinds false = true := by
  cases X with
  | inGroup opening closing depth => cases depth <;> rfl
  | effects | group => rfl
  | attributeNodes =>
    have hrest : (inOrder [call .attributeNodes]).puts kinds false = true :=
      Bool.and_eq_true_iff.2 ⟨h, rfl⟩
    exact Bool.and_eq_true_iff.2 ⟨Bool.and_eq_true_iff.2 ⟨h, hrest⟩, rfl⟩
  | attributeNode => exact h
  | parameterClause => exact Bool.and_eq_true_iff.2 ⟨h, rfl⟩
  | _ => cases h

lemma significant_ne_nil_of_holds {test : Test} (hend : test.atEnd = some false)
    (h : test.holds r = true) : Token.significant r ≠ [] := by
  intro hnil
  rw [holds_eq_reply, hnil, reply_of_atEnd hend] at h
  cases h

lemma Phrase.Runs.puts_of_known {phrase : Phrase Symbol} (h : Runs swift phrase s t) {known : Bool}
    (hputs : phrase.puts kinds known = true)
    (hknown : known = true → Token.significant s.rest ≠ []) : Puts kinds s t := by
  induction h generalizing known with
  | skip s => exact .refl kinds s
  | take s =>
    cases hrest : s.flush.rest with
    | nil =>
      have hpast : pastGap s.rest = [] := hrest
      rw [← significant_pastGap, hpast] at hknown
      exact absurd rfl (hknown hputs)
    | cons token rest =>
      rw [Progress.shift, hrest]
      exact .flush (.leaf token) (fun hnode => by cases hnode) (isTrivia_of_pastGap hrest) rest
  | call _ ih => exact ih (puts_swift hputs) (by simp)
  | seq _ _ ih₁ ih₂ =>
    obtain ⟨hfirst, hsecond⟩ := Bool.and_eq_true_iff.1 hputs
    exact (ih₁ hfirst hknown).trans (ih₂ hsecond (by simp))
  | yes htest _ ih =>
    refine ih (Bool.and_eq_true_iff.1 hputs).1 fun h => ?_
    exact (Bool.or_eq_true_iff.1 h).elim hknown fun hend =>
      significant_ne_nil_of_holds (beq_iff_eq.1 hend) htest
  | no _ _ ih => exact ih (Bool.and_eq_true_iff.1 hputs).2 hknown
  | @node kind _ s t =>
    have hkind : kind ∈ kinds := List.contains_iff_mem.1 hputs
    exact .flush (.node kind t.built) (fun _ => hkind) rfl t.rest
  | mark | wrap => cases hputs

lemma Phrase.Runs.puts {phrase : Phrase Symbol} (h : Runs swift phrase s t)
    (hputs : phrase.puts kinds false = true) : Puts kinds s t :=
  h.puts_of_known hputs (by simp)

lemma significant_append (front back : List Token) :
    Token.significant (front ++ back) = Token.significant front ++ Token.significant back :=
  List.filter_append _ _

lemma significant_lead {lead : List Token} {token : Token}
    (hlead : ∀ token ∈ lead, token.isTrivia = true) (htoken : token.isTrivia = false) :
    Token.significant (lead ++ token :: r) = token :: Token.significant r := by
  have hgap := gap_cons (r := r) htoken
  rw [← significant_pastGap, pastGap_append hlead, pastGap_of_gap hgap, Token.significant,
    List.filter_cons_of_pos (by simp [htoken])]
  rfl

lemma significant_shift (s : Progress) :
    Token.significant s.flush.shift.rest = (Token.significant s.rest).tail := by
  rw [Progress.rest_shift, Progress.rest_flush, ← afterTake, significant_afterTake]

lemma Phrase.Runs.exists_leaves {phrase : Phrase Symbol} (h : Runs swift phrase s t)
    (hputs : phrase.puts [] false = true) : ∃ tokens : List Token, t.built = s.built ++ tokens.map .leaf := by
  obtain ⟨new, hnew, hkinds, -⟩ := h.puts hputs
  refine ⟨Tree.leavesOf new, ?_⟩
  rw [hnew]
  congr 1
  clear hnew
  induction new with
  | nil => rfl
  | cons tree new ih =>
    obtain ⟨hfirst, hrest⟩ := List.forall_mem_cons.1 hkinds
    cases tree with
    | leaf token => simpa using ih hrest
    | node => cases hfirst rfl

/-- An effect that comes is taken. -/
lemma Phrase.Runs.significant_lt (h : Runs swift (.call .effects) s t)
    (htest : (nextAny [.asyncKw, .throwsKw, .rethrowsKw]).holds s.rest = true) :
    (Token.significant t.rest).length < (Token.significant s.rest).length := by
  obtain ⟨-, hrest⟩ | ⟨hno, -⟩ := runs_opt_iff.1 (runs_call_iff.1 h)
  · obtain ⟨u, htake, hrest⟩ := runs_inOrder_cons.1 hrest
    obtain rfl := runs_take_iff.1 htake
    have hle := (hrest.rest_suffix.filter (!·.isTrivia)).length_le
    change (Token.significant t.rest).length ≤ (Token.significant s.flush.shift.rest).length at hle
    rw [significant_shift, List.length_tail] at hle
    have hpos := List.length_pos_iff.2 (significant_ne_nil_of_holds rfl htest)
    omega
  · rw [htest] at hno
    cases hno

/-- Trivia at the end of a row of trees. -/
lemma eq_of_append_trivia {a b : List Tree} {x y : List Token}
    (h : a ++ x.map .leaf = b ++ y.map .leaf) (ha : a.getLast?.all (!·.isTriviaLeaf) = true)
    (hb : b.getLast?.all (!·.isTriviaLeaf) = true) (hx : ∀ token ∈ x, token.isTrivia = true)
    (hy : ∀ token ∈ y, token.isTrivia = true) : a = b ∧ x = y := by
  have hnil {front c : List Tree} {tokens more : List Token} (hc : tokens.map .leaf = c ++ more.map .leaf)
      (hlast : (front ++ c).getLast?.all (!·.isTriviaLeaf) = true)
      (htrivia : ∀ token ∈ tokens, token.isTrivia = true) : c = [] := by
    obtain rfl | ⟨others, last, rfl⟩ := List.eq_nil_or_concat' c
    · rfl
    · have hmem : last ∈ tokens.map Tree.leaf := by simp [hc]
      obtain ⟨token, htoken, rfl⟩ := List.mem_map.1 hmem
      simp [Tree.isTriviaLeaf, htrivia token htoken] at hlast
  have hinj := List.map_injective_iff.2 fun _ _ => Tree.leaf.inj
  obtain ⟨c, rfl, hc⟩ | ⟨c, rfl, hc⟩ := List.append_eq_append_iff.1 h
  · obtain rfl := hnil hc hb hx
    exact ⟨by simp, hinj hc⟩
  · obtain rfl := hnil hc ha hy
    exact ⟨by simp, hinj hc.symm⟩

lemma holds_nextAny_of_subset {kinds' : List Kind} (hsub : kinds ⊆ kinds')
    (h : (nextAny kinds).holds r = true) : (nextAny kinds').holds r = true := by
  rw [nextAny, holds_sees] at h ⊢
  obtain ⟨token, htoken, hkind⟩ := (Option.any_eq_true _ _).1 h
  refine (Option.any_eq_true _ _).2 ⟨token, htoken, ?_⟩
  exact List.contains_iff_mem.2 (hsub (List.contains_iff_mem.1 hkind))

lemma holds_nextAny_eq_false {kinds' : List Kind} (hsub : kinds' ⊆ kinds)
    (h : (nextAny kinds).holds r = false) : (nextAny kinds').holds r = false :=
  Bool.eq_false_iff.2 fun h' => Bool.eq_false_iff.1 h (holds_nextAny_of_subset hsub h')

lemma holds_next_eq_false (kind : Kind) (hkind : kind ∈ kinds)
    (h : (nextAny kinds).holds r = false) : (next kind).holds r = false :=
  Bool.eq_false_iff.2 fun h' =>
    Bool.eq_false_iff.1 h (holds_nextAny _ (List.contains_iff_mem.2 hkind) h')

/-! ## Arrows -/

/-- Two tokens that stay, and the one behind them, show all that is seen of an arrow. -/
lemma holds_arrowAhead_congr {tokens r r' : List Token}
    (hlength : 2 ≤ (Token.significant tokens).length) (h : Near r r') :
    arrowAhead.holds (tokens ++ r) = arrowAhead.holds (tokens ++ r') := by
  have hnext := h.next_eq
  rw [ahead?_eq_significant, ahead?_eq_significant] at hnext
  have hsame : ∀ n < 3, (Token.significant (tokens ++ r))[n]? =
      (Token.significant (tokens ++ r'))[n]? := by
    intro n hn
    rw [significant_append, significant_append, List.getElem?_append, List.getElem?_append]
    split
    · rfl
    · obtain hn : n - (Token.significant tokens).length = 0 := by omega
      rw [hn, hnext]
  simp [arrowAhead, next, nextAny, second, hsame 0, hsame 1, hsame 2]

namespace Graft

variable {seated inHead : Bool} {grafts : List Graft} {e : List Segment} {kind : Kind}
  {body : Phrase Symbol}

lemma take_lift {p : Kind → Bool} (htest : (Test.sees 0 p).holds s.rest = true)
    (h : Shows seated inHead grafts e s.flush.shift) (hfirm : isFirm e = true) :
    ∃ grafts₀ e₀, segmentsOf grafts₀ ++ e₀ = segmentsOf grafts ++ e ∧
      Shows seated inHead grafts₀ e₀ s ∧ Clear e₀ ∧ (Test.sees 0 p).holds (row true e₀) = true ∧
        Runs swift .take (stage grafts₀ e₀) (stage grafts e) := by
  obtain ⟨grafts₀, e₀, hsame, h₀, ⟨hloose, hclear⟩, hruns⟩ := closes_take_of_holds htest rfl h trivial
  refine ⟨grafts₀, e₀, hsame, h₀, hclear (.inr hfirm), ?_, hruns⟩
  rw [← hloose.near.holds_eq rfl, h₀.rest_eq, htest]

/-- An arrow that was seen behind a type is seen later. -/
lemma arrow_lift (ih : FollowsBelow n) (hn : s.rest.length ≤ n)
    (htest : arrowAhead.holds s.rest = true) (h : Runs swift arrowPhrase s t)
    (hsuits : arrowPhrase.suits seated inHead = true) (ht : Shows seated inHead grafts e t)
    (hclear : Clear e) {grafts₀ : List Graft} {e₀ : List Segment}
    (hsame : segmentsOf grafts₀ ++ e₀ = segmentsOf grafts ++ e)
    (h₀ : Shows seated inHead grafts₀ e₀ s) (hclear₀ : Clear e₀) :
    arrowAhead.holds (row true e₀) = true := by
  obtain ⟨u, hbody, rfl⟩ := runs_wrap_iff.1 h
  obtain ⟨inner, rfl, hsuits, hinner, -⟩ := ht.exists_of_wrap hsuits
  obtain ⟨m₁, heffects, hrest⟩ := runs_inOrder_cons.1 hbody
  obtain ⟨m₂, htake, htype⟩ := runs_inOrder_cons.1 hrest
  rw [runs_inOrder_singleton] at htype
  obtain hnext | ⟨heffect, hsecond⟩ : (next .arrow).holds s.rest = true ∨
      (nextAny [.asyncKw, .throwsKw]).holds s.rest = true ∧
        (Test.either (second .arrow) (.sees 2 (· == .arrow))).holds s.rest = true := by
    simpa [arrowAhead] using htest
  · rw [← h₀.rest_eq, hclear₀.loose.near.holds_eq rfl] at hnext
    simp [arrowAhead, hnext]
  -- the effects and what is taken for the arrow are tokens that stay
  obtain ⟨effects, heffectsBuilt⟩ := heffects.exists_leaves rfl
  obtain ⟨taken, htaken⟩ := Progress.exists_leaves_take m₁
  have htwo : 2 ≤ (Token.significant s.rest).length := by
    have hany : (Token.significant s.rest)[1]?.any (fun token => token.kind == .arrow) = true ∨
        (Token.significant s.rest)[2]?.any (fun token => token.kind == .arrow) = true := by
      simpa [second] using hsecond
    by_contra hlt
    have h₁ : (Token.significant s.rest)[1]? = none := List.getElem?_eq_none (by omega)
    have h₂ : (Token.significant s.rest)[2]? = none := List.getElem?_eq_none (by omega)
    simp [h₁, h₂] at hany
  have hlt := heffects.significant_lt (holds_nextAny_of_subset (by simp) heffect)
  obtain rfl := runs_take_iff.1 htake
  have hrest : s.rest = (effects ++ taken) ++ m₁.flush.shift.rest := by
    have htokens := ((Runs.take (g := swift) m₁).tokens_eq.trans heffects.tokens_eq).symm
    simpa [Progress.tokens, htaken, heffectsBuilt] using htokens
  have hcount : (Token.significant s.rest).length =
      (Token.significant (effects ++ taken)).length + ((Token.significant m₁.rest).length - 1) := by
    rw [← List.length_tail, ← significant_shift, ← List.length_append, ← significant_append, ← hrest]
  have hlength : 2 ≤ (Token.significant (effects ++ taken)).length := by omega
  have hshort : m₁.flush.shift.rest.length < n := by
    have hle := (List.filter_sublist (l := effects ++ taken) (p := (!·.isTrivia))).length_le
    have heq := congrArg List.length hrest
    rw [List.length_append] at heq
    change (Token.significant (effects ++ taken)).length ≤ _ at hle
    omega
  obtain ⟨grafts₂, e₂, hsame₂, h₂, hclear₂, -⟩ :=
    ih htype trivial hshort (Bool.and_eq_true_iff.1 (Bool.and_eq_true_iff.1
      (Bool.and_eq_true_iff.1 hsuits).2).2).1 hinner hclear
  obtain ⟨grafts₁, rfl, h₁⟩ := h₂.exists_before (s := s) _
    (by rw [htaken, heffectsBuilt, List.append_assoc, List.map_append]) hrest
  have hcut : e₀ = (effects ++ taken).map .keep ++ e₂ := by
    refine h₀.steady.eq_of_row_eq (List.suffix_append _ _) ?_ (h₀.rest_eq.trans h₁.rest_eq.symm)
    rw [hsame, segmentsOf_singleton, segments_node, ← hsame₂]
    exact ⟨segmentsOf grafts₁, by simp⟩
  have hrow : row true e₀ = (effects ++ taken) ++ row true e₂ := by
    rw [hcut, row_append, row_map_keep]
  rw [hrow, ← holds_arrowAhead_congr hlength hclear₂.loose.near, h₂.rest_eq, ← hrest, htest]

/-! ## Effects and names -/

/-- Behind a group that is closed anything may come. -/
lemma closes_inGroup {opening closing : Kind} {depth : Nat}
    (h : Runs swift (.call (.inGroup opening closing depth)) s t)
    (hend : Token.significant t.rest ≠ []) :
    Closes false (.call (.inGroup opening closing depth)) s t := by
  induction hlength : s.rest.length using Nat.strong_induction_on generalizing s depth with
  | _ n ih =>
    subst hlength
    have hstep {p : Kind → Bool} {depth' : Nat} (htest : (Test.sees 0 p).holds s.rest = true)
        (h : Runs swift (inOrder [take, call (.inGroup opening closing depth')]) s t) :
        Closes false (inOrder [take, call (.inGroup opening closing depth')]) s t := by
      obtain ⟨u, htake, hrest⟩ := runs_inOrder_cons.1 h
      have hlt := length_lt_of_take (holds_someToken htest) htake
      obtain rfl := runs_take_iff.1 htake
      exact ((closes_take_of_holds htest).seq (ih _ hlt (runs_inOrder_singleton.1 hrest) rfl).last).mono
    refine Leads.call ?_
    obtain ⟨htest, h⟩ | ⟨htest, h⟩ := runs_choose_iff.1 (runs_call_iff.1 h)
    · exact Leads.choose htest rfl (hstep htest h)
    refine Leads.choose htest rfl ?_
    obtain ⟨htest, h⟩ | ⟨htest, h⟩ := runs_choose_iff.1 h
    · refine Leads.choose htest rfl ?_
      cases depth with
      | succ outer => exact hstep htest h
      | zero =>
        obtain ⟨u, htake, hskip⟩ := runs_inOrder_cons.1 h
        obtain rfl := runs_skip_iff.1 (runs_inOrder_singleton.1 hskip)
        obtain rfl := runs_take_iff.1 htake
        intro seated inHead grafts e hsuits ht he
        obtain ⟨grafts₀, e₀, hsame, h₀, he₀, hruns⟩ := closes_take_of_holds htest rfl ht he
        exact ⟨grafts₀, e₀, hsame, h₀, he₀, .seq hruns (.seq (.skip _) (.skip _))⟩
    refine Leads.choose htest rfl ?_
    obtain ⟨htest, h⟩ | ⟨htest, h⟩ := runs_choose_iff.1 h
    · exact Leads.choose htest rfl (hstep htest h)
    · obtain rfl := runs_skip_iff.1 h
      cases hall : Token.significant t.rest with
      | nil => exact absurd hall hend
      | cons token rest => simp [someToken, hall] at htest

/-- Effects are read later, where none comes behind them. -/
lemma effects_lift (ih : FollowsBelow n) (hn : s.rest.length ≤ n)
    (h : Runs swift (.call .effects) s t) (hend : Token.significant t.rest ≠ [])
    (ht : Shows seated inHead grafts e t) (hfirm : isFirm e = true)
    (hmute : (nextAny continuing).holds (row true e) = false) :
    ∃ grafts₀ e₀, segmentsOf grafts₀ ++ e₀ = segmentsOf grafts ++ e ∧
      Shows seated inHead grafts₀ e₀ s ∧ (Clear e₀ ∨ s = t ∧ e₀ = e) ∧
        Runs swift (.call .effects) (stage grafts₀ e₀) (stage grafts e) := by
  induction hlength : s.rest.length using Nat.strong_induction_on generalizing s with
  | _ k ihk =>
    subst hlength
    obtain ⟨htest, h⟩ | ⟨-, rfl⟩ := runs_opt_iff.1 (runs_call_iff.1 h)
    swap
    · refine ⟨grafts, e, rfl, ht, .inr ⟨rfl, rfl⟩, .call (.no ?_ (.skip _))⟩
      exact holds_nextAny_eq_false (by decide) hmute
    obtain ⟨s₁, htake, hrest⟩ := runs_inOrder_cons.1 h
    have hlt := length_lt_of_take (holds_someToken htest) htake
    obtain rfl := runs_take_iff.1 htake
    obtain ⟨s₂, hgroup, hagain⟩ := runs_inOrder_cons.1 hrest
    rw [runs_inOrder_singleton] at hagain
    have hle := hgroup.rest_suffix.length_le
    obtain ⟨grafts₂, e₂, hsame₂, h₂, hcases, hruns₂⟩ := ihk _ (by omega) (by omega) hagain rfl
    -- a group behind the effect
    obtain ⟨grafts₁, e₁, hsame₁, h₁, hfirm₁, hruns₁⟩ : ∃ grafts₁ e₁,
        segmentsOf grafts₁ ++ e₁ = segmentsOf grafts₂ ++ e₂ ∧
          Shows seated inHead grafts₁ e₁ s.flush.shift ∧ isFirm e₁ = true ∧
            Runs swift joinedGroup (stage grafts₁ e₁) (stage grafts₂ e₂) := by
      obtain hclear | ⟨rfl, rfl⟩ := hcases
      · obtain ⟨grafts₁, e₁, hsame₁, h₁, hclear₁, hruns₁⟩ :=
          ih hgroup ⟨.inl (.of_isNear rfl), trivial, trivial⟩ (by omega) rfl h₂ hclear
        exact ⟨grafts₁, e₁, hsame₁, h₁, hclear₁.firm, hruns₁⟩
      · obtain ⟨hjoined, hgroup⟩ | ⟨-, rfl⟩ := runs_opt_iff.1 hgroup
        · have hopen : (next .lparen).holds s.flush.shift.rest = true :=
            (Bool.and_eq_true_iff.1 hjoined).1
          obtain ⟨-, hgroup⟩ | ⟨hno, -⟩ := runs_choose_iff.1 (runs_call_iff.1 hgroup)
          · obtain ⟨s₃, htake, hgroup⟩ := runs_inOrder_cons.1 hgroup
            obtain rfl := runs_take_iff.1 htake
            have hcloses := (closes_take_of_holds hopen).seq
              (closes_inGroup (runs_inOrder_singleton.1 hgroup) hend).last
            obtain ⟨grafts₁, e₁, hsame₁, h₁, he₁, hruns₁⟩ :=
              Leads.opt hjoined rfl (Leads.call (X := .group) (Leads.choose hopen rfl hcloses)) rfl h₂
                trivial
            exact ⟨grafts₁, e₁, hsame₁, h₁, he₁.1.firm, hruns₁⟩
          · rw [hopen] at hno
            cases hno
        · refine ⟨grafts₂, e₂, rfl, h₂, hfirm, .no ?_ (.skip _)⟩
          have hparen := holds_next_eq_false .lparen (by decide) hmute
          simp [joined, stage, hparen]
    obtain ⟨grafts₀, e₀, hsame₀, h₀, hclear₀, htest₀, hruns₀⟩ := take_lift htest h₁ hfirm₁
    exact ⟨grafts₀, e₀, hsame₀.trans (hsame₁.trans hsame₂), h₀, .inl hclear₀,
      .call (.yes htest₀ (.seq hruns₀ (.seq hruns₁ (.seq hruns₂ (.skip _)))))⟩

/-- The names of a closure's parameters are read later, where none comes behind them. -/
lemma mutes_closureNames (htest : (next .ident).holds s.rest = true)
    (h : Runs swift (.call .closureNames) s t) :
    Leads (.mutes [.ident, .comma]) (.call .closureNames) s t := by
  induction hlength : s.rest.length using Nat.strong_induction_on generalizing s with
  | _ k ihk =>
    subst hlength
    rintro seated inHead grafts e - ht ⟨hfirm, hmute⟩
    obtain ⟨-, h⟩ | ⟨hno, -⟩ := runs_opt_iff.1 (runs_call_iff.1 h)
    swap
    · rw [htest] at hno
      cases hno
    obtain ⟨s₁, htake, hrest⟩ := runs_inOrder_cons.1 h
    have hlt := length_lt_of_take (holds_someToken htest) htake
    obtain rfl := runs_take_iff.1 htake
    -- what comes behind the first name
    obtain ⟨grafts₁, e₁, hsame₁, h₁, hfirm₁, hruns₁⟩ : ∃ grafts₁ e₁,
        segmentsOf grafts₁ ++ e₁ = segmentsOf grafts ++ e ∧
          Shows seated inHead grafts₁ e₁ s.flush.shift ∧ isFirm e₁ = true ∧
            Runs swift (opt (next .comma) <| inOrder [take, call .closureNames])
              (stage grafts₁ e₁) (stage grafts e) := by
      obtain ⟨hcomma, hrest⟩ | ⟨-, rfl⟩ := runs_opt_iff.1 (runs_inOrder_singleton.1 hrest)
      · obtain ⟨s₂, htake, hagain⟩ := runs_inOrder_cons.1 hrest
        have hlt' := length_lt_of_take (holds_someToken hcomma) htake
        obtain rfl := runs_take_iff.1 htake
        rw [runs_inOrder_singleton] at hagain
        obtain ⟨grafts₂, e₂, hsame₂, h₂, hfirm₂, hruns₂⟩ : ∃ grafts₂ e₂,
            segmentsOf grafts₂ ++ e₂ = segmentsOf grafts ++ e ∧
              Shows seated inHead grafts₂ e₂ s.flush.shift.flush.shift ∧ isFirm e₂ = true ∧
                Runs swift (.call .closureNames) (stage grafts₂ e₂) (stage grafts e) := by
          cases hname : (next .ident).holds s.flush.shift.flush.shift.rest with
          | true =>
            obtain ⟨grafts₂, e₂, hsame₂, h₂, hclear₂, hruns₂⟩ :=
              ihk _ (by omega) hname hagain rfl rfl ht ⟨hfirm, hmute⟩
            exact ⟨grafts₂, e₂, hsame₂, h₂, Clear.firm hclear₂, hruns₂⟩
          | false =>
            obtain ⟨hname', -⟩ | ⟨-, rfl⟩ := runs_opt_iff.1 (runs_call_iff.1 hagain)
            · rw [hname] at hname'
              cases hname'
            · exact ⟨grafts, e, rfl, ht, hfirm,
                .call (.no (holds_next_eq_false _ (by decide) hmute) (.skip _))⟩
        obtain ⟨grafts₁, e₁, hsame₁, h₁, hclear₁, htest₁, hruns₁⟩ := take_lift hcomma h₂ hfirm₂
        exact ⟨grafts₁, e₁, hsame₁.trans hsame₂, h₁, hclear₁.firm,
          .yes htest₁ (.seq hruns₁ (.seq hruns₂ (.skip _)))⟩
      · exact ⟨grafts, e, rfl, ht, hfirm, .no (holds_next_eq_false _ (by decide) hmute) (.skip _)⟩
    obtain ⟨grafts₀, e₀, hsame₀, h₀, hclear₀, htest₀, hruns₀⟩ := take_lift htest h₁ hfirm₁
    exact ⟨grafts₀, e₀, hsame₀.trans hsame₁, h₀, hclear₀,
      .call (.yes htest₀ (.seq hruns₀ (.seq hruns₁ (.skip _))))⟩

/-! ## Parameters -/

lemma Closes.mutes (h : Closes true body s t) : Leads (.mutes kinds) body s t := by
  rintro seated inHead grafts e hsuits ht -
  obtain ⟨grafts₀, e₀, hsame, h₀, he₀, hruns⟩ := h hsuits ht trivial
  exact ⟨grafts₀, e₀, hsame, h₀, he₀.2 (.inl rfl), hruns⟩

lemma holdsParameters_flush (h : s.built.any Tree.holdsParameters = false) :
    s.flush.built.any Tree.holdsParameters = false := by
  simpa [Progress.flush, Tree.holdsParameters] using h

section

variable (ih : FollowsBelow n) (hn : s.rest.length ≤ n)
  (hnone : s.built.any Tree.holdsParameters = false)
  (hany : t.built.any Tree.holdsParameters = true)

include ih hn hnone hany

/-- Parameters in parentheses end by themselves. -/
lemma closes_parameterClause (h : Runs swift (.call .parameterClause) s t) :
    Closes true (.call .parameterClause) s t := by
  obtain ⟨hopen, hnode⟩ | ⟨-, rfl⟩ := runs_opt_iff.1 (runs_call_iff.1 h)
  · obtain ⟨u, -, rfl⟩ := runs_node_iff.1 hnode
    have hshut : (Tree.node .parameterClause u.built).isShut = true := by
      simpa [holdsParameters_flush hnone, Tree.holdsParameters] using hany
    refine Leads.call (Leads.choose hopen rfl ?_)
    exact (brackets_call ih (X := .parameters) rfl rfl).closes rfl hn (holds_nextAny _ rfl hopen) hnode
      fun tree htree => by
        obtain rfl : _ = tree := by simpa using htree
        exact hshut
  · rw [hnone] at hany
    cases hany

lemma mutes_closureParameters (h : Runs swift closureParameters s t) :
    Leads (.mutes [.ident, .comma]) closureParameters s t := by
  obtain ⟨hopen, hclause⟩ | ⟨hopen, hrest⟩ := runs_choose_iff.1 h
  · exact Leads.choose hopen rfl (closes_parameterClause ih hn hnone hany hclause).mutes
  refine Leads.choose hopen rfl ?_
  obtain ⟨hname, hnode⟩ | ⟨-, rfl⟩ := runs_opt_iff.1 hrest
  · obtain ⟨u, hnames, rfl⟩ := runs_node_iff.1 hnode
    refine Leads.choose hname rfl (Leads.node rfl hnames (mutes_closureNames ?_ hnames))
    change (next .ident).holds (pastGap s.rest) = true
    simpa [next] using hname
  · rw [hnone] at hany
    cases hany

end

/-- What comes before a return clause is read without it. -/
lemma front_lift (params : Phrase Symbol) (ih : FollowsBelow n) (hn : m₀.rest.length ≤ n) (hparams : Runs swift params m₀ m₁)
    (hfollows : Follows params m₀ m₁)
    (hmutes : m₁.built.any Tree.holdsParameters = true → Leads (.mutes kinds) params m₀ m₁)
    (heffects : Runs swift (.call .effects) m₁ m₂) (hend : Token.significant m₂.rest ≠ [])
    (hany : m₂.built.any Tree.holdsParameters = true)
    (hsuits : params.suits seated inHead = true) (ht : Shows seated inHead grafts e m₂)
    (hfirm : isFirm e = true) (hmute : (nextAny continuing).holds (row true e) = false)
    (hmute' : (nextAny kinds).holds (row true e) = false) :
    ∃ grafts₀ e₀, segmentsOf grafts₀ ++ e₀ = segmentsOf grafts ++ e ∧
      Shows seated inHead grafts₀ e₀ m₀ ∧ Clear e₀ ∧
        ∀ ⦃rest u⦄, Runs swift rest (stage grafts e) u →
          Runs swift (.seq params (.seq (.call .effects) rest)) (stage grafts₀ e₀) u := by
  obtain ⟨grafts₁, e₁, hsame₁, h₁, hcases, hruns₁⟩ := effects_lift ih
    (hparams.rest_suffix.length_le.trans hn) heffects hend ht hfirm hmute
  obtain ⟨grafts₀, e₀, hsame₀, h₀, hclear₀, hruns₀⟩ : ∃ grafts₀ e₀,
      segmentsOf grafts₀ ++ e₀ = segmentsOf grafts₁ ++ e₁ ∧ Shows seated inHead grafts₀ e₀ m₀ ∧
        Clear e₀ ∧ Runs swift params (stage grafts₀ e₀) (stage grafts₁ e₁) := by
    obtain hclear | ⟨rfl, rfl⟩ := hcases
    · exact hfollows hsuits h₁ hclear
    · exact hmutes hany hsuits h₁ ⟨hfirm, hmute'⟩
  exact ⟨grafts₀, e₀, hsame₀.trans hsame₁, h₀, hclear₀,
    fun rest u hrest => .seq hruns₀ (.seq hruns₁ hrest)⟩

/-! ## Signatures -/

/-- Each part of a phrase is read later as it was. -/
def Steps : Phrase Symbol → Progress → Progress → Prop
  | .seq first second, s, t => ∃ u, Runs swift first s u ∧ Follows first s u ∧ Steps second u t
  | phrase, s, t => Runs swift phrase s t

lemma any_holdsParameters_of_puts (h : Puts kinds ⟨[], r⟩ s) (hclause : Kind.parameterClause ∉ kinds)
    (hparams : Kind.closureParams ∉ kinds) : s.built.any Tree.holdsParameters = false := by
  obtain ⟨new, hnew, hkinds, -⟩ := h
  obtain rfl : s.built = new := hnew
  refine List.any_eq_false.2 fun tree htree hholds => ?_
  have hkind := hkinds tree htree
  unfold Tree.holdsParameters at hholds
  split at hholds
  · exact hclause (hkind rfl)
  · exact hparams (hkind rfl)
  · cases hholds

/-- Where the return clause of a signature is, and what comes before and behind it. -/
lemma Shows.OfShed.split {front tail : List Graft} {clause : List Tree} {lead : List Token}
    (tokens : List Token) (h : Shows.OfShed seated inHead kind front lead clause tail e t) (hputs : Puts kinds ⟨[], r⟩ m₂)
    (hkinds : Kind.returnClause ∉ kinds) (hclause : Runs swift (.call .returnClause) m₂ m₃)
    (hbehind : Runs swift body m₃ t) (htokens : t.built = m₃.built ++ tokens.map .leaf) :
    Shows seated inHead front (.drop (lead ++ Tree.leavesOf clause) :: (tokens.map .keep ++ e)) m₂ ∧
      tail = tokens.map leaf ∧ Token.significant m₂.rest ≠ [] := by
  obtain ⟨hbuilt, hparts, hfront, htail⟩ := h
  simp only [Grammar.parts, Bool.and_eq_true] at hparts
  obtain ⟨⟨⟨-, hlast⟩, hlead⟩, -⟩ := hparts
  obtain ⟨new, hnew, hadded, hsolid⟩ := hputs
  obtain rfl : m₂.built = new := hnew
  have hnone {trees : List Tree} (h : ∀ tree ∈ trees, tree.isNode = true → tree.kind ∈ kinds) :
      Tree.node .returnClause clause ∉ trees := fun hmem => hkinds (h _ hmem rfl)
  have hleaves (tokens : List Token) : Tree.node .returnClause clause ∉ tokens.map Tree.leaf := by
    simp
  rw [htokens] at hbuilt
  obtain ⟨harrow, hnode⟩ | ⟨-, rfl⟩ := runs_opt_iff.1 (runs_call_iff.1 hclause)
  · obtain ⟨v, hv, rfl⟩ := runs_node_iff.1 hnode
    have hrest : v.rest = tokens ++ t.rest := by
      have heq := hbehind.tokens_eq.symm
      rw [Progress.tokens, Progress.tokens, htokens] at heq
      simpa using heq
    have hclause : pastGap m₂.rest = Tree.leavesOf v.built ++ v.rest := hv.tokens_eq.symm
    rw [Progress.flush] at hbuilt
    simp only [List.append_assoc, List.singleton_append] at hbuilt
    rw [← List.append_assoc, ← List.append_assoc (treesOf false front)] at hbuilt
    obtain ⟨hsplit, heq, hmore⟩ := (List.append_cons_inj_of_notMem
      (fun hmem => (List.mem_append.1 hmem).elim (hnone hadded) (hleaves _)) (hleaves _)).1 hbuilt
    obtain ⟨hbuilt₂, rfl⟩ :=
      eq_of_append_trivia hsplit hsolid hlast isTrivia_gap (List.all_eq_true.1 hlead)
    obtain rfl := (Tree.node.inj heq).2
    obtain rfl := eq_map_leaf htail.fits hmore.symm
    refine ⟨?_, rfl, significant_ne_nil_of_holds rfl harrow⟩
    rw [← hbuilt₂, treesOf_map_leaf, Tree.leavesOf_map_leaf, ← hrest, ← hclause,
      gap_append_pastGap, segmentsOf_map_leaf] at hfront
    exact hfront
  · have hmem : Tree.node .returnClause clause ∈ m₃.built ++ tokens.map .leaf := by simp [hbuilt]
    exact ((List.mem_append.1 hmem).elim (hnone hadded) (hleaves _)).elim

/-- The signature of a function without its return clause. -/
lemma shedding_function (ih : FollowsBelow n) (hn : r.length ≤ n)
    (h : Steps functionBody ⟨[], r⟩ t) : Shedding .follows .functionSignature functionBody t := by
  intro inHead front lead clause tail e hsuits hshed hclear
  obtain ⟨m₁, hparams, hfollows, m₂, heffects, -, m₃, hclause, -, hskip⟩ := h
  have hputs : Puts [.parameterClause] ⟨[], r⟩ m₂ :=
    (hparams.puts rfl).trans
      (heffects.puts rfl)
  obtain ⟨hfront, rfl, hend⟩ := hshed.split [] hputs (by decide) hclause hskip
    (by rw [runs_skip_iff.1 hskip]; simp)
  obtain ⟨hany, hmute⟩ : (treesOf false front).any Tree.holdsParameters = true ∧
      (nextAny continuing).holds t.rest = false := by
    have hparts := hshed.parts
    simp only [parts, Bool.and_eq_true] at hparts
    exact ⟨hparts.1.1.1.2, by simpa [treesOf] using hparts.2⟩
  rw [← hshed.tail.rest_eq, hclear.loose.near.holds_eq rfl] at hmute
  obtain ⟨grafts₀, e₀, hsame, h₀, hclear₀, hruns⟩ := front_lift _ ih hn hparams hfollows
    (fun hany => (closes_parameterClause ih hn rfl hany hparams).mutes) heffects hend
    (hfront.built_eq ▸ hany) rfl hfront rfl hmute hmute
  obtain rfl := h₀.eq_nil
  obtain rfl : e₀ = _ := hsame
  have harrow := holds_next_eq_false .arrow (by decide) hmute
  rw [segments_shed_append, List.map_nil, List.append_nil]
  exact ⟨hclear₀, hruns (.seq (.call (.no harrow (.skip _))) (.skip _))⟩

/-- The signature of a closure without its return clause. -/
lemma shedding_closure (ih : FollowsBelow n) (hn : r.length ≤ n)
    (h : Steps closureBody ⟨[], r⟩ t) : Shedding .follows .closureSignature closureBody t := by
  intro inHead front lead clause tail e hsuits hshed hclear
  obtain ⟨u, hattributes, hattributes', m₀, hgroup, hgroup', m₁, hparams, hfollows, m₂, heffects, -,
    m₃, hclause, -, m₄, haccept, -, hskip⟩ := h
  obtain rfl := runs_skip_iff.1 hskip
  have hputs₀ : Puts [.attributeNode] ⟨[], r⟩ m₀ :=
    (hattributes.puts rfl).trans
      (hgroup.puts rfl)
  have hputs : Puts [.attributeNode, .parameterClause, .closureParams] ⟨[], r⟩ m₂ :=
    (((hattributes.puts rfl).trans
      (hgroup.puts rfl)).trans
        (hparams.puts rfl)).trans
          (heffects.puts rfl)
  obtain ⟨hany, hsome⟩ : (treesOf false front).any Tree.holdsParameters = true ∧
      treesOf false tail ≠ [] := by
    have hparts := hshed.parts
    simp only [parts, Bool.and_eq_true] at hparts
    exact ⟨hparts.1.1.1.2, by simpa using (Bool.and_eq_true_iff.1 hparts.2).1⟩
  -- behind the clause comes `in`, as something does
  obtain ⟨hin, htake⟩ | ⟨-, rfl⟩ := runs_opt_iff.1 haccept
  swap
  · obtain ⟨-, rfl, -⟩ := hshed.split [] hputs (by decide) hclause hskip (by simp)
    cases hsome rfl
  obtain ⟨token, rest, hrest, hkind⟩ := exists_cons_of_holds hin
  obtain rfl := runs_take_iff.1 htake
  have hshift : m₃.flush.shift = ⟨m₃.built ++ (gap m₃.rest ++ [token]).map .leaf, rest⟩ := by
    have hflush : m₃.flush.rest = token :: rest := hrest
    rw [Progress.shift, hflush]
    simp [Progress.flush]
  obtain ⟨hfront, rfl, hend⟩ := hshed.split _ hputs (by decide) hclause haccept
    (congrArg Progress.built hshift)
  -- nothing else that could go on with the parameters
  set segments := .drop (lead ++ Tree.leavesOf clause) ::
    ((gap m₃.rest ++ [token]).map .keep ++ e) with hsegments
  have hrow : row true segments = gap m₃.rest ++ token :: row true e := by
    simp [hsegments, Segment.tokens]
  have hnext : Token.significant (row true segments) = token :: Token.significant (row true e) := by
    rw [hrow, significant_lead isTrivia_gap (isTrivia_of_pastGap hrest)]
  have hmute (kinds : List Kind) (hkinds : kinds.contains .inKw = false) :
      (nextAny kinds).holds (row true segments) = false := by
    simpa [nextAny, hnext, beq_iff_eq.1 hkind] using hkinds
  have hn₀ : m₀.rest.length ≤ n :=
    (hgroup.rest_suffix.trans hattributes.rest_suffix).length_le.trans hn
  obtain ⟨grafts₀, e₀, hsame₀, h₀, hclear₀, hruns₀⟩ := front_lift closureParameters ih
    hn₀ hparams hfollows (fun hany => mutes_closureParameters ih hn₀
      (any_holdsParameters_of_puts hputs₀ (by decide) (by decide)) hany hparams) heffects hend
    (hfront.built_eq ▸ hany) (by cases inHead <;> rfl) hfront rfl (hmute _ rfl) (hmute _ rfl)
  have harrow := holds_next_eq_false .arrow (by decide) (hmute continuing rfl)
  have hclose : Runs swift (accept .inKw) (stage front segments)
      (stage (front ++ (gap m₃.rest ++ [token]).map leaf) e) := by
    refine .yes (by simp [next, stage, hnext, hkind]) ?_
    rw [stage, hrow, stage, treesOf_append, treesOf_map_leaf]
    exact runs_take isTrivia_gap (isTrivia_of_pastGap hrest) (treesOf true front)
  have hnone : Runs swift (.call .returnClause) (stage front segments) (stage front segments) :=
    .call (.no harrow (.skip _))
  replace hruns₀ := hruns₀ (.seq hnone (.seq hclose (.skip _)))
  -- what comes before the parameters
  obtain ⟨grafts₁, e₁, hsame₁, h₁, hclear₁, hruns₁⟩ := hgroup' rfl h₀ hclear₀
  obtain ⟨grafts₂, e₂, hsame₂, h₂, hclear₂, hruns₂⟩ := hattributes' rfl h₁ hclear₁
  obtain rfl := h₂.eq_nil
  obtain rfl : e₂ = _ := (hsame₂.trans hsame₁).trans hsame₀
  rw [segments_shed_append, segmentsOf_map_leaf]
  exact ⟨hclear₂, .seq hruns₂ (.seq hruns₁ hruns₀)⟩

/-- What runs at first runs later. -/
theorem follows_of_runs {phrase : Phrase Symbol} (h : Runs swift phrase s t)
    (hheeds : phrase.Heeds) : Follows phrase s t := by
  suffices hall : ∀ n ⦃phrase s t⦄, Runs swift phrase s t → phrase.Heeds → s.rest.length ≤ n →
      (Follows phrase s t ∧ Steps phrase s t) ∧
        (s.built = [] → gap s.rest = [] → Opens phrase t) from (hall _ h hheeds le_rfl).1.1
  intro n
  induction n using Nat.strong_induction_on with
  | _ n ihn =>
    have ih : FollowsBelow n := fun _ _ _ h hheeds hlt => (ihn _ hlt h hheeds le_rfl).1.1
    intro phrase s t h hheeds hn
    induction h with
    | skip s =>
      refine ⟨⟨fun seated inHead grafts e _ ht hclear => ⟨grafts, e, rfl, ht, hclear, .skip _⟩,
        .skip _⟩, fun hbuilt _ inHead grafts e _ ht hclear => ?_⟩
      obtain ⟨built, r⟩ := s
      obtain rfl : built = [] := hbuilt
      obtain rfl := ht.eq_nil
      exact ⟨hclear, .skip _⟩
    | take s => exact ⟨⟨follows_take, .take s⟩, fun _ _ => opens_of_eq_false fun _ => rfl⟩
    | @call X s t hX ihX =>
      exact ⟨⟨(ihX (heeds_swift X) hn).1.1.call, .call hX⟩,
        fun _ _ => opens_of_eq_false fun _ => rfl⟩
    | @seq first second s u t h₁ h₂ ih₁ ih₂ =>
      obtain ⟨⟨hfirst, -⟩, -⟩ := ih₁ hheeds.1 hn
      obtain ⟨⟨hsecond, hsteps⟩, -⟩ := ih₂ hheeds.2 (h₁.rest_suffix.length_le.trans hn)
      refine ⟨⟨hfirst.seq hsecond (fun _ h => h) fun _ _ h => ⟨h, fun _ h => h⟩, u, h₁, hfirst, hsteps⟩,
        fun hbuilt hgap inHead grafts e hopens ht hclear => ?_⟩
      obtain ⟨inCondition, hchain, hhead⟩ := Phrase.exists_of_opens hopens
      obtain ⟨rfl, rfl⟩ := Phrase.seq.inj hchain
      obtain ⟨built, r⟩ := s
      obtain rfl : built = [] := hbuilt
      have hsuits :
          (Phrase.seq (.call (.exprSuffixes inCondition)) .skip).suits true inHead = true := by
        cases inCondition with
        | false => rfl
        | true => simpa [Phrase.suits, Symbol.suits] using hhead rfl
      obtain ⟨grafts₁, e₁, hsame, hu, hclear₁, hnext⟩ := hsecond hsuits ht hclear
      rw [← hsame]
      exact exprChain_lift ih hn hgap h₁ hfirst hhead hu hclear₁ hnext
    | yes htest h ihyes =>
      obtain ⟨⟨hfollows, -⟩, hopens⟩ := ihyes hheeds.2.1 hn
      refine ⟨⟨fun seated inHead grafts e hsuits ht hclear => ?_, .yes htest h⟩,
        fun hbuilt hgap inHead grafts e hsuits ht hclear => ?_⟩
      · obtain ⟨hyes, -⟩ := Bool.and_eq_true_iff.1 hsuits
        obtain ⟨grafts₀, e₀, hsame, h₀, hclear₀, hruns⟩ := hfollows hyes ht hclear
        refine ⟨grafts₀, e₀, hsame, h₀, hclear₀, .yes ?_ hruns⟩
        obtain hforeseen | ⟨rfl, rfl⟩ := hheeds.1
        · have heq := (Clear.view hclear₀).holds_eq hforeseen
          rwa [h₀.rest_eq, htest, eq_comm] at heq
        · exact arrow_lift ih hn htest h hyes ht hclear hsame h₀ hclear₀
      · obtain ⟨hyes, -⟩ := Bool.and_eq_true_iff.1 hsuits
        obtain hforeseen | ⟨-, rfl⟩ := hheeds.1
        · obtain ⟨hclear₀, hruns⟩ := hopens hbuilt hgap hyes ht hclear
          have heq := hclear₀.view.holds_eq hforeseen
          rw [ht.row_eq, h.tokens_eq, Progress.tokens, hbuilt, Tree.leavesOf_nil, List.nil_append,
            htest] at heq
          exact ⟨hclear₀, .yes heq.symm hruns⟩
        · cases hyes
    | no htest h ihno =>
      obtain ⟨⟨hfollows, -⟩, hopens⟩ := ihno hheeds.2.2 hn
      refine ⟨⟨fun seated inHead grafts e hsuits ht hclear => ?_, .no htest h⟩,
        fun hbuilt hgap inHead grafts e hsuits ht hclear => ?_⟩
      · obtain ⟨grafts₀, e₀, hsame, h₀, hclear₀, hruns⟩ :=
          hfollows (Bool.and_eq_true_iff.1 hsuits).2 ht hclear
        rw [← h₀.rest_eq] at htest
        exact ⟨grafts₀, e₀, hsame, h₀, hclear₀, .no ((Clear.view hclear₀).fails hheeds.1 htest) hruns⟩
      · obtain ⟨hclear₀, hruns⟩ := hopens hbuilt hgap (Bool.and_eq_true_iff.1 hsuits).2 ht hclear
        refine ⟨hclear₀, .no (hclear₀.view.fails hheeds.1 ?_) hruns⟩
        rwa [ht.row_eq, h.tokens_eq, Progress.tokens, hbuilt, Tree.leavesOf_nil, List.nil_append]
    | @node kind body s t h ihbody =>
      have hn' := (pastGap_suffix s.rest).length_le.trans hn
      obtain ⟨⟨hfollows, hsteps⟩, -⟩ := ihbody hheeds.2 hn'
      refine ⟨⟨?_, .node h⟩, fun _ _ => opens_of_eq_false fun _ => rfl⟩
      cases hsheds : kind.sheds with
      | false => exact Leads.node hsheds h hfollows
      | true =>
        obtain rfl | rfl : kind = .functionSignature ∨ kind = .closureSignature := by
          simpa [Kind.sheds] using hsheds
        · obtain rfl : body = functionBody := hheeds.1
          exact Leads.node_of_shedding (shedding_function ih hn' hsteps) h hfollows
        · obtain rfl : body = closureBody := hheeds.1
          exact Leads.node_of_shedding (shedding_closure ih hn' hsteps) h hfollows
    | @mark body s t h ihbody =>
      obtain ⟨⟨hfollows, -⟩, hopens⟩ := ihbody hheeds ((pastGap_suffix _).length_le.trans hn)
      exact ⟨⟨follows_mark h hfollows (hopens rfl (gap_pastGap _)), .mark h⟩,
        fun _ _ => opens_of_eq_false fun _ => rfl⟩
    | wrap h ihbody =>
      exact ⟨⟨(ihbody hheeds.2 hn).1.1.wrap _, .wrap h⟩, fun _ _ => opens_of_eq_false fun _ => rfl⟩

end Graft

end Grammar

open Grammar Grammar.Graft

/-! ## Files -/

lemma runs_parseTokens (tokens : List Token) :
    ∃ t, Phrase.Runs swift (.call (.statements .fileEnd)) ⟨[], tokens⟩ t ∧
      t.flush = ⟨(parseTokens tokens).children, []⟩ := by
  have hready : swiftPlan.ready (.statements .fileEnd) tokens := fun hneeds => by
    simp [swiftGuide, Symbol.needsOpening] at hneeds
  refine ⟨_, swiftPlan.runs_derive (s := ⟨[], tokens⟩) hready (effort_file tokens), ?_⟩
  exact Progress.mk.injEq .. ▸ ⟨rfl, pastGap_eq_nil (significant_rest_file tokens)⟩

/-- A tree with parts exchanged is what a reader makes of the new tokens, if the parts fit and
nothing else is read in another way. -/
theorem parseTokens_graft {tokens : List Token} {grafts : List Graft}
    (htree : treesOf false grafts = (parseTokens tokens).children)
    (hfits : FitsOf true false grafts []) (hsteady : Steady (segmentsOf grafts)) :
    parseTokens (Tree.leavesOf (treesOf true grafts)) = .node .sourceFile (treesOf true grafts) := by
  obtain ⟨t, hruns, hflush⟩ := runs_parseTokens tokens
  have ht : Shows true false grafts [] t.flush := by
    rw [hflush]
    exact ⟨htree, rfl, hfits, by rwa [List.append_nil]⟩
  have hclear : Clear [] := ⟨rfl, hsteady.2 _ List.nil_suffix rfl⟩
  obtain ⟨grafts₁, e₁, hsame₁, h₁, -, hclear₁, hflush₁⟩ := ht.exists_of_flush hclear.loose
  obtain ⟨-, hlater⟩ := (follows_of_runs hruns trivial).runs rfl h₁ (hclear₁ hclear)
  rw [hsame₁, List.append_nil, row_segmentsOf] at hlater
  obtain ⟨u, hu, hend⟩ := runs_parseTokens (Tree.leavesOf (treesOf true grafts))
  rw [← hlater.unique hu, hflush₁] at hend
  exact congrArg (Tree.node .sourceFile) (congrArg Progress.built hend).symm

end SwiftTidy

import Mathlib.Data.List.Find
import SwiftTidy.Proofs.Grafts

/-!
# Reading exchanged parts

A call that is exchanged for an operation had a subject and an operand, and the reader who read the
call read both of them. What they did there can be done again where the operator stands between the
two: an operand that ends by itself does so whatever comes behind it (`Graft.unary_lift`), and in
parentheses every operand does (`Graft.group_lift`). So the operation is read in the place of the
call (`Graft.swap_lift`).
-/

namespace SwiftTidy.Grammar.Graft

open Phrase Test

variable {n : Nat} {s t u : Progress} {r r₀ rest : List Token}
  {seated inHead inCondition sure : Bool} {grafts : List Graft} {e : List Segment}
  {kind closing : Kind} {body : Phrase Symbol} {ps : List (Phrase Symbol)}

/-- What runs do at first they do later, if less than `n` tokens are to come. -/
def FollowsBelow (n : Nat) : Prop :=
  ∀ ⦃phrase s t⦄, Runs swift phrase s t → phrase.Heeds → s.rest.length < n → Follows phrase s t

/-! ## Brackets -/

lemma Closes.mono (h : Closes sure body s t) : Closes false body s t := by
  intro seated inHead grafts e hsuits ht he
  obtain ⟨grafts₀, e₀, hsame, h₀, he₀, hruns⟩ := h hsuits ht he
  exact ⟨grafts₀, e₀, hsame, h₀, ⟨he₀.1, fun hfirm => he₀.2 (.inr (hfirm.resolve_left (by simp)))⟩,
    hruns⟩

lemma closes_take_of_holds {p : Kind → Bool} (h : (Test.sees 0 p).holds s.rest = true) :
    Closes false .take s s.flush.shift := by
  obtain ⟨token, rest, hrest, -⟩ := exists_cons_of_holds h
  have hflush : s.flush.rest = token :: rest := hrest
  have hshift : s.flush.shift = ⟨s.flush.built ++ [.leaf token], rest⟩ := by
    rw [Progress.shift, hflush]
  rw [hshift]
  exact closes_take hflush

lemma closes_accept (hclosing : closers.contains closing = true)
    (hs : (next closing).holds s.rest = true) : Closes true (accept closing) s s.flush.shift := by
  have htake : Closes false .take s s.flush.shift := closes_take_of_holds hs
  intro seated inHead grafts e hsuits ht he
  obtain ⟨grafts₀, e₀, hsame, h₀, ⟨hloose, -⟩, hruns⟩ := Leads.choose hs rfl htake hsuits ht he
  refine ⟨grafts₀, e₀, hsame, h₀, ⟨hloose, fun _ => hloose.clear ?_⟩, hruns⟩
  rw [h₀.rest_eq]
  exact holds_nextAny _ hclosing hs

/-- What may stand between brackets: it asks the questions of the grammar, and adds no closing
bracket by itself. -/
def IsInner (phrase : Phrase Symbol) : Prop :=
  phrase.Heeds ∧ ∀ kind, closers.contains kind = true → phrase.spares kind false = true

lemma exists_leaf_of_isShut {children : List Tree} (h : (Tree.node kind children).isShut = true) :
    ∃ token, .leaf token ∈ children ∧ closers.contains token.kind = true := by
  obtain ⟨last, hlast, hcloser⟩ := (Option.any_eq_true _ _).1 h
  cases last with
  | leaf token => exact ⟨token, List.mem_of_getLast? hlast, hcloser⟩
  | node => cases hcloser

/-- What stands before a closing bracket that is there. -/
lemma closes_inOrder (ih : FollowsBelow n) (hps : ∀ phrase ∈ ps, IsInner phrase)
    (hclosing : closers.contains closing = true) (hs : s.rest.length < n)
    (hnone : ∀ token, .leaf token ∈ s.built → closers.contains token.kind = false)
    (h : Runs swift (inOrder (ps ++ [accept closing])) s t)
    (hshut : (Tree.node kind t.built).isShut = true) :
    Closes true (inOrder (ps ++ [accept closing])) s t := by
  induction ps generalizing s with
  | nil =>
    obtain ⟨hnext, htake⟩ | ⟨-, rfl⟩ := runs_opt_iff.1 (runs_inOrder_singleton.1 h)
    · obtain rfl := runs_take_iff.1 htake
      exact (closes_accept hclosing hnext).last
    · obtain ⟨token, hmem, hcloser⟩ := exists_leaf_of_isShut hshut
      rw [hnone token hmem] at hcloser
      cases hcloser
  | cons phrase ps ihps =>
    obtain ⟨⟨hheeds, hspares⟩, hps⟩ := List.forall_mem_cons.1 hps
    obtain ⟨u, hu, hrest⟩ := runs_inOrder_cons.1 h
    have hle := hu.rest_suffix.length_le
    refine (ih hu hheeds hs).closes_seq (ihps hps (by omega) (fun token hmem => ?_) hrest)
    by_contra hcloser
    have hcloser := Bool.eq_true_of_not_eq_false hcloser
    rw [hnone token (hu.leaf_mem hcloser (hspares _ hcloser) (by simp) hmem)] at hcloser
    cases hcloser

/-- A body that begins with an opening bracket: where a closing one is at its end, what comes behind
does not matter. -/
def Brackets (n : Nat) (body : Phrase Symbol) : Prop :=
  ∀ ⦃r t kind⦄, gap r = [] → r.length ≤ n → (nextAny [.lparen, .lbracket, .lbrace]).holds r = true →
    Runs swift body ⟨[], r⟩ t → (Tree.node kind t.built).isShut = true → Closes true body ⟨[], r⟩ t

section Brackets

variable (ih : FollowsBelow n)

include ih

lemma brackets_inOrder (ps : List (Phrase Symbol)) (hps : ∀ phrase ∈ ps, IsInner phrase)
    (hclosing : closers.contains closing = true) :
    Brackets n (inOrder (take :: (ps ++ [accept closing]))) := by
  intro r t kind hgap hn hopen h hshut
  obtain ⟨u, htake, hrest⟩ := runs_inOrder_cons.1 h
  have hlt := length_lt_of_take (s := ⟨[], r⟩) (holds_someToken hopen) htake
  obtain rfl := runs_take_iff.1 htake
  obtain ⟨token, rest, hr, hkind⟩ := exists_cons_of_holds hopen
  refine (closes_take_of_holds (s := ⟨[], r⟩) hopen).seq
    (closes_inOrder ih hps hclosing (lt_of_lt_of_le hlt hn) (fun other hmem => ?_) hrest hshut)
  rw [flush_of_gap hgap, Progress.shift, ← pastGap_of_gap hgap, hr] at hmem
  obtain rfl := Tree.leaf.inj (List.mem_singleton.1 hmem)
  have hkinds : other.kind = .lparen ∨ other.kind = .lbracket ∨ other.kind = .lbrace := by
    simpa using hkind
  rcases hkinds with h | h | h <;> rw [h] <;> rfl

lemma brackets_call {X : Symbol} (hX : X.spares = true) (hclosing : closers.contains closing = true) :
    Brackets n (inOrder [take, call X, accept closing]) :=
  brackets_inOrder ih [_] (by simpa using ⟨trivial, fun _ _ => hX⟩) hclosing

lemma brackets_arguments (hclosing : closers.contains closing = true) :
    Brackets n (.call (.arguments closing)) := by
  intro r t kind hgap hn hopen h hshut
  exact (brackets_call ih (X := .argumentItems closing) rfl hclosing hgap hn hopen
    (runs_call_iff.1 h) hshut).call

lemma brackets_closure : Brackets n
    (inOrder [take, opt closureHead (call .closureSignature), call (.statements .brace),
      accept .rbrace]) := by
  refine brackets_inOrder ih [_, _] (fun phrase hphrase => ?_) rfl
  obtain rfl | rfl : phrase = opt closureHead (call .closureSignature) ∨
      phrase = call (.statements .brace) := by simpa using hphrase
  · exact ⟨⟨.inl (.far (by simp [farTests])), trivial, trivial⟩, fun _ _ => rfl⟩
  · exact ⟨trivial, fun _ _ => rfl⟩

end Brackets

lemma Brackets.closes (hbrackets : Brackets n body) (hsheds : kind.sheds = false)
    (hn : s.rest.length ≤ n) (hopen : (nextAny [.lparen, .lbracket, .lbrace]).holds s.rest = true)
    (h : Runs swift (.node kind body) s t) (hshut : ∀ tree ∈ t.built.getLast?, tree.isShut = true) :
    Closes true (.node kind body) s t := by
  obtain ⟨u, hbody, rfl⟩ := runs_node_iff.1 h
  have hopen : (nextAny [.lparen, .lbracket, .lbrace]).holds (pastGap s.rest) = true := by
    rwa [nextAny, holds_sees, significant_pastGap, ← holds_sees]
  exact (hbrackets (gap_pastGap _) ((pastGap_suffix _).length_le.trans hn) hopen hbody
    (hshut (.node kind u.built) (by simp))).node hsheds hbody

section

variable (ih : FollowsBelow n) (hn : s.rest.length ≤ n)
  (hopen : (nextAny [.lparen, .lbracket, .lbrace]).holds s.rest = true)
  (hshut : ∀ tree ∈ t.built.getLast?, tree.isShut = true)

include ih hn hopen hshut

lemma closes_argumentList (hclosing : closers.contains closing = true)
    (h : Runs swift (.call (.argumentList closing)) s t) :
    Closes true (.call (.argumentList closing)) s t :=
  ((brackets_arguments ih hclosing).closes rfl hn hopen (runs_call_iff.1 h) hshut).call

lemma closes_closure (h : Runs swift (.call .closure) s t) : Closes true (.call .closure) s t :=
  ((brackets_closure ih).closes rfl hn hopen (runs_call_iff.1 h) hshut).call

end

/-! ## Suffixes -/

lemma isNear_closureHere : (closureHere inCondition).isNear = true := by cases inCondition <;> rfl

lemma suffixForm?_congr {r' : List Token} (h : SameView r r') :
    suffixForm? inCondition r = suffixForm? inCondition r' := by
  refine List.find?_congr fun form hform => h.holds_eq ?_
  simp only [suffixForms, List.mem_cons, List.not_mem_nil, or_false] at hform
  obtain rfl | rfl | rfl | rfl | rfl := hform
  · exact .far (by simp [farTests])
  · exact .of_isNear rfl
  · exact .of_isNear rfl
  · exact .of_isNear isNear_closureHere
  · exact .of_isNear rfl

/-- A mark behind an operand is told by the next token. -/
lemma suffixForm?_mark {r' : List Token} {form : Test × Kind × Phrase Symbol} (h : Near r r')
    (hmark : unwrapMark.holds r = true) (hform : suffixForm? inCondition r = some form) :
    suffixForm? inCondition r' = some form := by
  have hdot {r : List Token} (hmark : unwrapMark.holds r = true) : memberHere.holds r = false := by
    have hbars : (nextAny [.question, .bang]).bars .dot = true := rfl
    rw [memberHere, holds_both, next_of_bars hbars (Bool.and_eq_true_iff.1 hmark).1,
      Bool.false_and]
  have hnear : ∀ form ∈ suffixForms inCondition, form.1.holds r' = form.1.holds r := by
    intro form hform
    simp only [suffixForms, List.mem_cons, List.not_mem_nil, or_false] at hform
    obtain rfl | rfl | rfl | rfl | rfl := hform
    · rw [hdot hmark, hdot ((h.holds_eq rfl).symm.trans hmark)]
    · exact (h.holds_eq rfl).symm
    · exact (h.holds_eq rfl).symm
    · exact (h.holds_eq isNear_closureHere).symm
    · exact (h.holds_eq rfl).symm
  rw [← hform]
  exact List.find?_congr hnear

/-- Where a suffix was read with all brackets closed, it is read later. -/
lemma suffixed_lift (ih : FollowsBelow n) (hn : s.rest.length ≤ n) (h : Suffixed inCondition s t)
    {first : Tree} (hs : s.built = [first]) (hstands : ∀ tree ∈ t.built, tree.stands false = true)
    (ht : Shows false inHead grafts e t)
    (hclosure : (closureHere inCondition).holds t.rest = false →
      (closureHere inCondition).holds (row true e) = false) :
    ∃ grafts₀ e₀, segmentsOf grafts₀ ++ e₀ = segmentsOf grafts ++ e ∧
      Shows false inHead grafts₀ e₀ s ∧ Loose e₀ ∧
        Suffixed inCondition (stage grafts₀ e₀) (stage grafts e) := by
  obtain ⟨form, hform, hruns⟩ := h
  obtain ⟨u, hbody, rfl⟩ := runs_wrap_iff.1 hruns
  have hsure (hcloses : Closes true form.2.2 s u)
      (hsuits : (Phrase.wrap form.2.1 form.2.2).suits false inHead = true) :
      ∃ grafts₀ e₀, segmentsOf grafts₀ ++ e₀ = segmentsOf grafts ++ e ∧
        Shows false inHead grafts₀ e₀ s ∧ Loose e₀ ∧
          Suffixed inCondition (stage grafts₀ e₀) (stage grafts e) := by
    obtain ⟨grafts₀, e₀, hsame, h₀, ⟨hloose, hclear⟩, hlater⟩ := hcloses.wrap _ hsuits ht trivial
    refine ⟨grafts₀, e₀, hsame, h₀, hloose, form, ?_, hlater⟩
    rw [← hform, ← h₀.rest_eq, suffixForm?_congr (hclear (.inl rfl)).view]
    rfl
  -- a node that is added behind what stands before the suffix
  have hshut {m m' : Progress} {kind : Kind} {body : Phrase Symbol} (hkind : form.2.1 = .callExpr)
      (hm : s.built <+: m.built) (hadded : Runs swift (.node kind body) m m')
      (hm' : m'.built <+: u.built) : ∀ tree ∈ m'.built.getLast?, tree.isShut = true := by
    obtain ⟨v, -, rfl⟩ := runs_node_iff.1 hadded
    obtain ⟨more, hmore⟩ := hm
    obtain ⟨others, hothers⟩ := hm'
    have hcall := hstands _ (List.mem_singleton_self _)
    rw [hkind] at hcall
    intro tree htree
    obtain rfl : _ = tree := by simpa using htree
    have hall := List.all_eq_true.1 (Bool.and_eq_true_iff.1 hcall).2 (.node kind v.built)
      (by simp [← hothers, Progress.flush, ← hmore, hs])
    exact (Bool.and_eq_true_iff.1 hall).1
  have hbrace {r : List Token} (hhere : (closureHere inCondition).holds r = true) :
      (nextAny [.lparen, .lbracket, .lbrace]).holds r = true := by
    cases inCondition with
    | false => exact holds_nextAny _ rfl (Bool.and_eq_true_iff.1 hhere).1
    | true => simp [closureHere, never] at hhere
  obtain ⟨hmember, rfl⟩ | ⟨hmember, ⟨hcall, rfl⟩ | ⟨hcall, ⟨hsubscript, rfl⟩ | ⟨hsubscript,
    ⟨hhere, rfl⟩ | ⟨hhere, hmark, rfl⟩⟩⟩⟩ := suffixForm?_eq_some hform
  · obtain ⟨m, hfirst, hsecond⟩ := runs_inOrder_cons.1 hbody
    obtain rfl := runs_take_iff.1 hfirst
    obtain rfl := runs_take_iff.1 (runs_inOrder_singleton.1 hsecond)
    obtain ⟨hdot, hname⟩ := Bool.and_eq_true_iff.1 hmember
    exact hsure ((closes_take_of_holds hdot).seq (closes_take_of_holds (holds_shift hname)).last)
      (by cases inHead <;> rfl)
  · obtain ⟨m, hlist, hopt⟩ := runs_inOrder_cons.1 hbody
    rw [runs_inOrder_singleton, runs_opt_iff] at hopt
    have hopen := holds_nextAny [.lparen, .lbracket, .lbrace] rfl
      (Bool.and_eq_true_iff.1 hcall).1
    have hadded := runs_call_iff.1 hlist
    obtain ⟨hhere, hbehind⟩ | ⟨hhere, rfl⟩ := hopt
    · have hadded' := runs_call_iff.1 hbehind
      have hclosure := closes_closure ih (hlist.rest_suffix.length_le.trans hn) (hbrace hhere)
        (hshut rfl (built_prefix_of_node hadded) hadded' List.prefix_rfl) hbehind
      have hlist := closes_argumentList ih hn hopen
        (hshut rfl List.prefix_rfl hadded (built_prefix_of_node hadded')) rfl hlist
      exact hsure (hlist.seq (Leads.choose hhere isNear_closureHere hclosure).last)
        (by cases inHead <;> rfl)
    · have hcloses := closes_argumentList ih hn hopen
        (hshut rfl List.prefix_rfl hadded List.prefix_rfl) rfl hlist
      obtain ⟨grafts₀, e₀, hsame, h₀, ⟨hloose, hclear⟩, hlater⟩ :=
        hcloses.wrap .callExpr (by cases inHead <;> rfl) ht trivial
      obtain ⟨w, hw, hend⟩ := runs_wrap_iff.1 hlater
      have hrest : w.rest = row true e := (congrArg Progress.rest hend).symm
      rw [← h₀.rest_eq, suffixForm?_congr (hclear (.inl rfl)).view] at hform
      rw [hend]
      exact ⟨grafts₀, e₀, hsame, h₀, hloose, _, hform,
        .wrap (.seq hw (.seq (.no (hrest ▸ hclosure hhere) (.skip _)) (.skip _)))⟩
  · have hopen := holds_nextAny [.lparen, .lbracket, .lbrace] rfl
      (Bool.and_eq_true_iff.1 hsubscript).1
    exact hsure (closes_argumentList ih hn hopen
      (hshut rfl List.prefix_rfl (runs_call_iff.1 hbody) List.prefix_rfl) rfl hbody)
      (by cases inHead <;> rfl)
  · exact hsure (closes_closure ih hn (hbrace hhere)
      (hshut rfl List.prefix_rfl (runs_call_iff.1 hbody) List.prefix_rfl) hbody)
      (by cases inHead <;> rfl)
  · obtain rfl := runs_take_iff.1 hbody
    have hcloses : Closes false .take s s.flush.shift :=
      closes_take_of_holds (Bool.and_eq_true_iff.1 hmark).1
    obtain ⟨grafts₀, e₀, hsame, h₀, ⟨hloose, -⟩, hlater⟩ :=
      hcloses.wrap .postfixExpr (by cases inHead <;> rfl) ht trivial
    rw [← h₀.rest_eq] at hmark hform
    exact ⟨grafts₀, e₀, hsame, h₀, hloose, _, suffixForm?_mark hloose.near hmark hform, hlater⟩

/-- Suffix after suffix is read later. -/
lemma suffixes_lift (ih : FollowsBelow n) {children : List Tree} (hn : r₀.length ≤ n)
    (h : Relation.ReflTransGen (Suffixed inCondition) ⟨[.node kind children], r₀⟩ t)
    (hstands : ∀ tree ∈ t.built, tree.stands false = true) (ht : Shows false inHead grafts e t)
    (hclosure : (closureHere inCondition).holds t.rest = false →
      (closureHere inCondition).holds (row true e) = false) :
    ∃ grafts₀ e₀, segmentsOf grafts₀ ++ e₀ = segmentsOf grafts ++ e ∧
      Shows false inHead grafts₀ e₀ ⟨[.node kind children], r₀⟩ ∧
        (Tree.node kind children).stands false = true ∧ (isFirm e = true → isFirm e₀ = true) ∧
          Relation.ReflTransGen (Suffixed inCondition) (stage grafts₀ e₀) (stage grafts e) := by
  induction h generalizing grafts e with
  | refl => exact ⟨grafts, e, rfl, ht, hstands _ (List.mem_singleton_self _), id, .refl⟩
  | @tail s t hsteps hlast ihsteps =>
    obtain ⟨kind₁, children₁, hs⟩ := built_suffixed hsteps
    obtain ⟨kind₂, more, hbuilt, hkind⟩ := hlast.exists_node
    rw [hs, List.singleton_append] at hbuilt
    have hfirst := Tree.stands_first (hstands _ (hbuilt ▸ List.mem_singleton_self _)) hkind rfl
    obtain ⟨grafts₁, e₁, hsame₁, h₁, hloose, hlater⟩ :=
      suffixed_lift ih ((length_suffixed hsteps).trans hn) hlast hs hstands ht hclosure
    obtain ⟨grafts₀, e₀, hsame₀, h₀, hprimary, hfirm, hlaters⟩ :=
      ihsteps (by simp [hs, hfirst]) h₁ fun hhere => by
        rw [← hloose.near.holds_eq isNear_closureHere, h₁.rest_eq, hhere]
    exact ⟨grafts₀, e₀, hsame₀.trans hsame₁, h₀, hprimary, fun _ => hfirm hloose.firm,
      hlaters.tail hlater⟩

/-! ## Operands -/

lemma primaryForm?_congr {r' : List Token} (h : Near r r') : primaryForm? r = primaryForm? r' := by
  refine List.find?_congr fun form hform => h.holds_eq ?_
  simp only [primaryForms, List.mem_cons, List.not_mem_nil, or_false] at hform
  obtain rfl | rfl | rfl | rfl | rfl | rfl := hform <;> rfl

/-- What an operand begins with is read later, if it ends by itself. -/
lemma closes_primary (ih : FollowsBelow n) {tree : Tree} (hn : r.length ≤ n) (hgap : gap r = [])
    (hkinds : (nextAny primaryKinds).holds r = true)
    (h : Runs swift (.call .primary) ⟨[], r⟩ ⟨[tree], r₀⟩) (hstands : tree.stands false = true) :
    Closes false (.call .primary) ⟨[], r⟩ ⟨[tree], r₀⟩ := by
  obtain ⟨form, hform⟩ := exists_primaryForm hkinds
  rw [runs_primary_iff, hform] at h
  replace h : Runs swift form.2 ⟨[], r⟩ ⟨[tree], r₀⟩ := h
  have hmem := List.mem_of_find?_eq_some hform
  have htest := List.find?_some hform
  have hsuits (seated inHead : Bool) : form.2.suits seated inHead = true := by
    simp only [primaryForms, List.mem_cons, List.not_mem_nil, or_false] at hmem
    obtain rfl | rfl | rfl | rfl | rfl | rfl := hmem <;> rfl
  suffices hcloses : Closes false form.2 ⟨[], r⟩ ⟨[tree], r₀⟩ by
    rintro seated inHead grafts e - ht he
    obtain ⟨grafts₀, e₀, hsame, h₀, he₀, hlater⟩ := hcloses (hsuits seated inHead) ht he
    refine ⟨grafts₀, e₀, hsame, h₀, he₀, runs_primary_iff.2 ?_⟩
    have hrest : primaryForm? (row false e₀) = some form := by rw [h₀.rest_eq, hform]
    change Runs swift (((primaryForm? (row true e₀)).map Prod.snd).getD skip) _ _
    rw [← primaryForm?_congr he₀.1.near, hrest]
    exact hlater
  have hflush := flush_of_gap hgap []
  have hnode {kind : Kind} {body : Phrase Symbol} (hsheds : kind.sheds = false)
      (h : Runs swift (.node kind body) ⟨[], r⟩ ⟨[tree], r₀⟩) :
      ∃ u, Runs swift body ⟨[], r⟩ u ∧ tree = .node kind u.built ∧
        ∀ {sure}, Closes sure body ⟨[], r⟩ u →
          Closes sure (.node kind body) ⟨[], r⟩ ⟨[tree], r₀⟩ := by
    obtain ⟨u, hu, heq⟩ := runs_node_iff.1 h
    rw [heq]
    rw [hflush] at hu heq
    refine ⟨u, hu, List.singleton_inj.1 (congrArg Progress.built heq), fun hcloses => ?_⟩
    exact Leads.node (s := ⟨[], r⟩) hsheds (by rwa [hflush]) (by rwa [hflush])
  have htake {kind : Kind} {kinds : List Kind} (hsheds : kind.sheds = false)
      (htest : (nextAny kinds).holds r = true)
      (h : Runs swift (.node kind .take) ⟨[], r⟩ ⟨[tree], r₀⟩) :
      Closes false (.node kind .take) ⟨[], r⟩ ⟨[tree], r₀⟩ := by
    obtain ⟨u, hu, -, hcloses⟩ := hnode hsheds h
    obtain rfl := runs_take_iff.1 hu
    exact hcloses (closes_take_of_holds (s := ⟨[], r⟩) htest)
  have hshut {kind : Kind} {body : Phrase Symbol} (hsheds : kind.sheds = false)
      (h : Runs swift (.node kind body) ⟨[], r⟩ ⟨[tree], r₀⟩)
      (hkind : ∀ children, (Tree.node kind children).stands false =
        (Tree.node kind children).isShut) :
      ∀ last ∈ (⟨[tree], r₀⟩ : Progress).built.getLast?, last.isShut = true := by
    obtain ⟨u, -, rfl, -⟩ := hnode hsheds h
    intro last hlast
    obtain rfl : _ = last := by simpa using hlast
    rwa [← hkind]
  simp only [primaryForms, List.mem_cons, List.not_mem_nil, or_false] at hmem
  obtain rfl | rfl | rfl | rfl | rfl | rfl := hmem
  · exact htake rfl htest h
  · exact htake rfl htest h
  · exact ((brackets_arguments ih rfl).closes rfl hn (holds_nextAny _ rfl htest) h
      (hshut rfl h fun _ => rfl)).mono
  · have hbody := runs_call_iff.1 h
    exact ((brackets_call ih (X := .arrayItems) rfl rfl).closes rfl hn (holds_nextAny _ rfl htest)
      hbody (hshut rfl hbody fun _ => rfl)).mono.call
  · exact (closes_closure ih hn (holds_nextAny _ rfl htest)
      (hshut rfl (runs_call_iff.1 h) fun _ => rfl) h).mono
  · obtain ⟨u, hu, rfl, hcloses⟩ := hnode rfl h
    obtain ⟨m, hfirst, hsecond⟩ := runs_inOrder_cons.1 hu
    obtain rfl := runs_take_iff.1 hfirst
    obtain rfl := runs_take_iff.1 (runs_inOrder_singleton.1 hsecond)
    refine (hcloses ((closes_take_of_holds (s := ⟨[], r⟩) htest).seq
      (closes_take_of_holds (p := fun _ => true) ?_).last)).mono
    -- the point is not the last token of the file
    obtain ⟨dot, rest, hr, -⟩ := exists_cons_of_holds htest
    have hdot : (⟨[], r⟩ : Progress).flush.shift = ⟨[.leaf dot], rest⟩ := by
      rw [hflush, Progress.shift, ← pastGap_of_gap hgap, hr]
      rfl
    rw [hdot] at hstands ⊢
    cases hrest : pastGap rest with
    | nil =>
      have hflush : (⟨[.leaf dot], rest⟩ : Progress).flush.rest = [] := hrest
      have hend : (⟨[.leaf dot], rest⟩ : Progress).flush.shift =
          ⟨.leaf dot :: (gap rest).map .leaf, pastGap rest⟩ := by
        rw [Progress.shift, hflush]
        rfl
      rw [hend] at hstands
      have hsolid : ((gap rest).map Tree.leaf).any (!·.isTriviaLeaf) = true := by
        rw [Tree.stands, Bool.and_eq_true] at hstands
        exact hstands.2
      obtain ⟨last, hlast, hsolid⟩ := List.any_eq_true.1 hsolid
      obtain ⟨token, htoken, rfl⟩ := List.mem_map.1 hlast
      change (!token.isTrivia) = true at hsolid
      rw [isTrivia_gap token htoken] at hsolid
      cases hsolid
    | cons token others =>
      rw [holds_sees, ← significant_pastGap, hrest, Token.significant,
        List.filter_cons_of_pos (by simp [isTrivia_of_pastGap hrest])]
      rfl

/-- An operand that begins without an operator is read later. -/
lemma operand_lift (ih : FollowsBelow n) {children : List Tree} (hn : r.length ≤ n)
    (hgap : gap r = []) (hkinds : (nextAny primaryKinds).holds r = true)
    (hprimary : Runs swift (.call .primary) ⟨[], r⟩ ⟨[.node kind children], r₀⟩)
    (hsteps : Relation.ReflTransGen (Suffixed inCondition) ⟨[.node kind children], r₀⟩ t)
    (hstands : ∀ tree ∈ t.built, tree.stands false = true) (ht : Shows false inHead grafts e t)
    (hbare : Bare inCondition (row true e)) :
    Mode.Begins (.closes false) e (segmentsOf grafts ++ e) ∧
      Runs swift (.call (.unary inCondition)) ⟨[], row true (segmentsOf grafts ++ e)⟩
        (stage grafts e) := by
  have hclosure : (closureHere inCondition).holds (row true e) = false :=
    bare_iff.1 hbare (closureHere inCondition, .callExpr, call .closure) (by simp [suffixForms])
  obtain ⟨grafts₀, e₀, hsame, h₀, hfirst, hfirm, hlater⟩ := suffixes_lift ih
    (hprimary.rest_suffix.length_le.trans hn) hsteps hstands ht fun _ => hclosure
  have hsheds : kind.sheds = false := by
    cases kind <;> first | rfl | cases hfirst
  obtain ⟨inner, rfl, -⟩ := h₀.exists_node (fun _ => rfl) hsheds
  obtain ⟨⟨hloose, hclear⟩, hruns⟩ :=
    (closes_primary ih hn hgap hkinds hprimary hfirst).runs rfl h₀ trivial
  have hrow : row false (segmentsOf [.node kind inner] ++ e₀) = r :=
    h₀.row_eq.trans hprimary.tokens_eq
  rw [← hsame]
  refine ⟨⟨hloose, fun he => hclear (he.imp id hfirm)⟩,
    runs_unary_of_suffixed ?_ ?_ hruns hlater hbare⟩
  · rw [← hloose.near.gap_eq, hrow, hgap]
  · rw [← hloose.near.holds_eq rfl, hrow, hkinds]

/-- An operand that ends by itself is read later, if no suffix comes behind it. -/
lemma unary_lift (ih : FollowsBelow n) {tree : Tree} (hn : r.length ≤ n) (hgap : gap r = [])
    (h : Runs swift (.call (.unary inCondition)) ⟨[], r⟩ ⟨[tree], rest⟩)
    (hstands : tree.stands false = true) (ht : Shows false inHead grafts e ⟨[tree], rest⟩)
    (hbare : Bare inCondition (row true e)) :
    Loose (segmentsOf grafts ++ e) ∧
      Runs swift (.call (.unary inCondition)) ⟨[], row true (segmentsOf grafts ++ e)⟩
        (stage grafts e) := by
  induction hlength : r.length using Nat.strong_induction_on generalizing r tree grafts with
  | _ m ihm =>
    obtain ⟨operator, r, rfl, hoperator⟩ | ⟨children, hbuilt⟩ | hbuilt |
      ⟨kind, children, r₀, hprimary, hkinds, -, -, hsteps, -⟩ := runs_unary_cases hgap h
    · obtain ⟨u, hu, heq⟩ := (runs_unary_prefixed hoperator).1 h
      obtain ⟨htree, rfl⟩ := Progress.mk.inj heq
      obtain rfl := List.singleton_inj.1 htree
      obtain ⟨last, hlast, hstandsLast⟩ :=
        exists_of_standsLast (built_unary (gap_pastGap _) hu) hstands
      obtain ⟨built, rest⟩ := u
      obtain rfl : built = [last] := hlast
      obtain ⟨inner, rfl, hinner⟩ := ht.exists_node (fun heq => by cases heq) rfl
      rw [← List.cons_append, ← List.map_cons] at hinner
      obtain ⟨front, back, rfl, hback, hfront⟩ := hinner.split
      obtain rfl := eq_map_leaf hfront.fits hfront.built_eq
      have hle := (pastGap_suffix r).length_le
      simp only [List.length_cons] at hlength hn
      obtain ⟨hloose, hruns⟩ :=
        ihm (pastGap r).length (by omega) (by omega) (gap_pastGap r) hu hstandsLast hback rfl
      have hsegments :
          segmentsOf [.node .prefixExpr ((operator :: gap r).map leaf ++ back)] ++ e =
            .keep operator :: ((gap r).map .keep ++ (segmentsOf back ++ e)) := by
        simp [segments, segmentsOf]
      have hgap' : gap (row true (segmentsOf back ++ e)) = [] := by
        rw [← hloose.near.gap_eq, hback.row_eq, hu.tokens_eq]
        exact gap_pastGap r
      rw [hsegments]
      refine ⟨loose_cons ?_ _, ?_⟩
      · have hkinds : operator.kind = .operator ∨ operator.kind = .bang := by simpa using hoperator
        rcases hkinds with h | h <;> rw [Token.isTrivia, h] <;> rfl
      rw [row_cons, row_append, row_map_keep, Segment.tokens, List.singleton_append]
      refine (runs_unary_prefixed hoperator).2 ⟨stage back e, ?_, ?_⟩
      · rw [pastGap_append isTrivia_gap, pastGap_of_gap hgap']
        exact hruns
      · rw [gap_append isTrivia_gap, hgap']
        simp [stage, treesOf, tree, treesOf_map_leaf]
    · obtain rfl := List.singleton_inj.1 hbuilt
      cases hstands
    · cases hbuilt
    · obtain ⟨hbegins, hruns⟩ :=
        operand_lift ih hn hgap hkinds hprimary hsteps (by simpa using hstands) ht hbare
      exact ⟨hbegins.1, hruns⟩

/-! ## Operations -/

/-- The operand that is taken out of its parentheses. -/
lemma plain_lift (ih : FollowsBelow n) {operand : Tree} {graft : Graft} {back : List Token}
    (hargued : Argued operand (back ++ row false e)) (hstands : operand.stands inHead = true)
    (hhead : inCondition = true → inHead = true)
    (ht : Shows false false [graft] (.trade back [] :: e) ⟨[operand], back ++ row false e⟩)
    (hn : (operand.leaves ++ (back ++ row false e)).length ≤ n)
    (hbare : Bare inCondition (row true e)) :
    ReadsOperand inCondition (graft.tree true) (row true e) ∧
      gap ((graft.tree true).leaves ++ row true e) = [] := by
  obtain ⟨r, hgap, -, -, hexpr⟩ := hargued
  have hr : operand.leaves ++ (back ++ row false e) = r := by
    simpa [Progress.tokens] using hexpr.tokens_eq
  have hunary :
      Runs swift (.call (.unary inCondition)) ⟨[], r⟩ ⟨[operand], back ++ row false e⟩ := by
    obtain hnil | ⟨kind, children, hbuilt, hcases⟩ := runs_expr_cases hgap hexpr
    · cases hnil
    · obtain rfl := List.singleton_inj.1 hbuilt
      obtain rfl | rfl | hunary := hcases
      · cases hstands
      · cases hstands
      · cases inCondition with
        | false => exact hunary
        | true => exact runs_unary_head hgap hunary (hhead rfl ▸ hstands)
  have hstands : operand.stands false = true := by
    cases inHead with
    | false => exact hstands
    | true => exact Tree.stands_of_head operand hstands
  obtain ⟨hloose, hruns⟩ := unary_lift ih (hr ▸ hn) hgap hunary hstands ht
    (by simpa [Segment.tokens] using hbare)
  have hrow : row true (segmentsOf [graft] ++ .trade back [] :: e) =
      (graft.tree true).leaves ++ row true e := by
    simp [Segment.tokens, row_segments]
  constructor
  · rw [ReadsOperand, ← hrow]
    simpa [stage, treesOf, Segment.tokens] using hruns
  · rw [← hrow, ← hloose.near.gap_eq, ht.row_eq, hexpr.tokens_eq]
    exact hgap

/-- The operand that stays in parentheses. -/
lemma group_lift (ih : FollowsBelow n) {operand : Tree} {graft : Graft} {back : List Token}
    (hargued : Argued operand (back ++ row false e))
    (hback : (back ++ row false e).head? = some ⟨.rparen, ")"⟩)
    (ht : Shows true false [graft] (.trade back [⟨.rparen, ")"⟩] :: e)
      ⟨[operand], back ++ row false e⟩)
    (hn : (operand.leaves ++ (back ++ row false e)).length < n) :
    Argued (graft.tree true) (⟨.rparen, ")"⟩ :: row true e) := by
  obtain ⟨r, hgap, hlabel, hstart, hexpr⟩ := hargued
  have hr : operand.leaves ++ (back ++ row false e) = r := by
    simpa [Progress.tokens] using hexpr.tokens_eq
  obtain ⟨others, hothers⟩ := List.head?_eq_some_iff.1 hback
  have hsolid : Token.isTrivia ⟨.rparen, ")"⟩ = false := rfl
  have hclear : Clear (.trade back [⟨.rparen, ")"⟩] :: e) := by
    have hloose : Loose (.trade back [⟨.rparen, ")"⟩] :: e) :=
      ⟨rfl, by simpa [Segment.tokens, hothers] using near_cons hsolid _ _⟩
    exact hloose.clear
      (by simp [Segment.tokens, hothers, nextAny, Token.significant, hsolid, closers])
  obtain ⟨hclear, hruns⟩ := (ih hexpr trivial (hr ▸ hn)).runs rfl ht hclear
  have hview := hclear.view
  rw [ht.row_eq, hexpr.tokens_eq] at hview
  refine ⟨_, hview.gap_eq.symm.trans hgap, ?_, ?_, ?_⟩
  · rw [← hview.holds_eq (.far (by simp [farTests]))]
    exact hlabel
  · rw [← hview.holds_eq (.far (by simp [farTests]))]
    exact hstart
  · simpa [stage, treesOf, Segment.tokens] using hruns

/-- The right side of an operation. -/
lemma side_lift (ih : FollowsBelow n) {exchange : Exchange} {old subject : Tree}
    {operands : List Graft}
    (hstands : exchange.Stands inHead old subject (treesOf false operands) (row false e))
    (ht : Shows exchange.side.seated false operands (exchange.closing :: e)
      ⟨treesOf false operands, exchange.back ++ row false e⟩)
    (hhead : inCondition = true → inHead = true)
    (hn : (Tree.leavesOf (treesOf false operands) ++ (exchange.back ++ row false e)).length < n)
    (hbare : Bare inCondition (row true e)) :
    ReadsOperand inCondition (exchange.side.tree (treesOf true operands)) (row true e) ∧
      gap ((exchange.side.tree (treesOf true operands)).leaves ++ row true e) = [] := by
  obtain ⟨operator, side, front, back⟩ := exchange
  have hone {operand : Tree} (heq : treesOf false operands = [operand]) :
      ∃ graft, operands = [graft] ∧ graft.tree false = operand :=
    List.map_eq_singleton_iff.1 ((treesOf_eq_map _ _).symm.trans heq)
  cases side with
  | literal token =>
    obtain ⟨hnone, htoken⟩ := hstands.side
    obtain rfl : operands = [] := List.map_eq_nil_iff.1 ((treesOf_eq_map _ _).symm.trans hnone)
    obtain ⟨hsolid, hreads⟩ := readsOperand_literal htoken hbare
    exact ⟨hreads, gap_cons hsolid⟩
  | plain =>
    obtain ⟨operand, heq, hends, hargued⟩ := hstands.side
    obtain ⟨graft, rfl, rfl⟩ := hone heq
    exact plain_lift ih hargued hends hhead ht (by simpa [treesOf] using hn.le) hbare
  | group =>
    obtain ⟨operand, heq, hargued, hback⟩ := hstands.side
    obtain ⟨graft, rfl, rfl⟩ := hone heq
    have hlater := group_lift ih hargued hback ht (by simpa [treesOf] using hn)
    exact ⟨readsOperand_group hlater hbare, gap_cons rfl⟩

/-- An operation is read in the place of a call, where reading goes on as it did. -/
lemma swap_lift (ih : FollowsBelow n) {old : Tree} {exchange : Exchange} {subject : Graft}
    {operands : List Graft} {t' : Progress} (hn : r.length ≤ n) (hgap : gap r = [])
    (hhead : inCondition = true → inHead = true)
    (hold : Runs swift (.call (.unary inCondition)) ⟨[], r⟩ u)
    (ht : Shows true inHead [.swap old exchange subject operands] e u) (hclear : Clear e)
    (hnext : Runs swift (.seq (.call (.exprSuffixes inCondition)) .skip)
      (stage [.swap old exchange subject operands] e) t') :
    Clear (segmentsOf [.swap old exchange subject operands] ++ e) ∧
      Runs swift (exprChain inCondition)
        ⟨[], row true (segmentsOf [.swap old exchange subject operands] ++ e)⟩ t' := by
  have hfits : Fits true inHead (.swap old exchange subject operands) u.rest := ht.fits.1
  rw [← ht.rest_eq] at hfits
  obtain ⟨⟨-, -, -, hleaves⟩, hsubject, hoperands, hstands⟩ := hfits
  obtain ⟨dots, more, hshape⟩ := hstands.shape
  have hnode : (subject.tree false).isNode = true := by
    have hends := hstands.subject
    cases hsubject : subject.tree false with
    | leaf => rw [hsubject] at hends; cases hends
    | node => rfl
  obtain ⟨hbare, kind, children, r₀, s, hprimary, hkinds, hsteps, hs⟩ :=
    exists_suffixed_subject hgap hold hnode (ht.built_eq.symm.trans (by rw [← hshape]; rfl))
  have hbare : Bare inCondition (row true e) := by
    rw [Bare, ← suffixForm?_congr hclear.view, ht.rest_eq]
    exact hbare
  have hsegments : segmentsOf [.swap old exchange subject operands] ++ e =
      segmentsOf [subject] ++ exchange.opening ::
        (segmentsOf operands ++ exchange.closing :: e) := by
    simp [segments]
  have hsteady := ht.steady
  rw [hsegments] at hsteady
  -- what stood behind the subject
  have hrest : s.rest = exchange.front ++
      (Tree.leavesOf (treesOf false operands) ++ (exchange.back ++ row false e)) := by
    have htokens : s.tokens = u.tokens := by
      rw [tokens_suffixed hsteps, hprimary.tokens_eq, hold.tokens_eq]
    rw [Progress.tokens, hs, ← ht.row_eq, row_append, ht.fits.row_eq] at htokens
    simpa [treesOf, tree, hleaves] using htokens
  have hshort : s.rest.length < r.length :=
    lt_of_le_of_lt (length_suffixed hsteps) (length_lt_of_call hprimary hkinds)
  have hfront : Shows false inHead [subject]
      (exchange.opening :: (segmentsOf operands ++ exchange.closing :: e)) s := by
    refine ⟨hs.symm, ?_, ⟨hrest ▸ hsubject, trivial⟩, hsteady⟩
    simp [hrest, Exchange.opening, Exchange.closing, Segment.tokens, hoperands.row_eq]
  have hback : Shows exchange.side.seated false operands (exchange.closing :: e)
      ⟨treesOf false operands, exchange.back ++ row false e⟩ :=
    ⟨rfl, by simp [Exchange.closing, Segment.tokens], hoperands,
      hsteady.suffix ((List.suffix_cons _ _).trans (List.suffix_append _ _))⟩
  have hends : (subject.tree false).stands false = true := by
    cases inHead with
    | false => exact hstands.subject
    | true => exact Tree.stands_of_head _ hstands.subject
  obtain ⟨hright, hgapRight⟩ := side_lift ih hstands hback hhead
    (by rw [hrest, List.length_append] at hshort; omega) hbare
  have hrow : row true (exchange.opening :: (segmentsOf operands ++ exchange.closing :: e)) =
      exchange.operator.between ++ (exchange.side.tree (treesOf true operands)).leaves ++
        row true e := by
    simp [Exchange.opening, Exchange.closing, Segment.tokens, Side.leaves_tree, row_segmentsOf]
  obtain ⟨⟨-, hclearFront⟩, hruns⟩ := operand_lift ih hn hgap hkinds hprimary hsteps
    (by simpa [hs] using hends) hfront
    (by rw [hrow, List.append_assoc]; exact Operator.bare_between)
  have hleft : ReadsOperand inCondition (subject.tree true)
      (exchange.operator.between ++ (exchange.side.tree (treesOf true operands)).leaves ++
        row true e) := by
    rw [row_append, hrow, segmentsOf_singleton, row_segments] at hruns
    simpa [ReadsOperand, stage, treesOf, hrow] using hruns
  rw [hsegments]
  refine ⟨hclearFront (.inr rfl), ?_⟩
  have hchain := Operator.runs hleft hright hgapRight hnext
  rwa [row_append, hrow, segmentsOf_singleton, row_segments, ← List.append_assoc,
    ← Operator.leaves_tree]

lemma Shows.length_le_one (h : Shows seated inHead grafts e u) (hgap : gap r = [])
    (hoperand : Runs swift (.call (.unary inCondition)) ⟨[], r⟩ u) : grafts.length ≤ 1 := by
  rw [← List.length_map (tree false), ← treesOf_eq_map, h.built_eq]
  obtain hnil | ⟨kind, children, hbuilt⟩ := built_unary hgap hoperand
  · simp [hnil]
  · simp [hbuilt]

/-- An operand is exchanged as a whole, or parts of it are. -/
lemma exprChain_lift (ih : FollowsBelow n) {t' : Progress} (hn : r.length ≤ n) (hgap : gap r = [])
    (hoperand : Runs swift (.call (.unary inCondition)) ⟨[], r⟩ u)
    (h : Follows (.call (.unary inCondition)) ⟨[], r⟩ u)
    (hhead : inCondition = true → inHead = true) (hu : Shows true inHead grafts e u)
    (hclear : Clear e)
    (hnext : Runs swift (.seq (.call (.exprSuffixes inCondition)) .skip) (stage grafts e) t') :
    Clear (segmentsOf grafts ++ e) ∧
      Runs swift (exprChain inCondition) ⟨[], row true (segmentsOf grafts ++ e)⟩ t' := by
  have hsuits : (Phrase.call (.unary inCondition)).suits false inHead = true := by
    cases inCondition with
    | false => rfl
    | true => exact hhead rfl
  have hinner (hfits : FitsOf false inHead grafts u.rest) : Clear (segmentsOf grafts ++ e) ∧
      Runs swift (exprChain inCondition) ⟨[], row true (segmentsOf grafts ++ e)⟩ t' := by
    obtain ⟨hclear, hfirst⟩ :=
      h.runs hsuits ⟨hu.built_eq, hu.rest_eq, hfits, hu.steady⟩ hclear
    exact ⟨hclear, .seq hfirst hnext⟩
  match grafts, hu.length_le_one hgap hoperand with
  | [], _ => exact hinner trivial
  | [.leaf _], _ | [.node _ _], _ | [.shed _ _ _ _ _], _ => exact hinner hu.fits
  | [.swap old exchange subject operands], _ =>
    exact swap_lift ih hn hgap hhead hoperand hu hclear hnext

end SwiftTidy.Grammar.Graft

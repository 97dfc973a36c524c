import SwiftTidy.Proofs.TypedForms

/-!
# Nodes without tokens

Nearly all nodes take a token wherever they are opened, so they are never empty. The procedures of the grammar are
followed with what is known of the next token and whether a token has been taken since the node was opened. What is left
are signatures and elements of tuple types of which no part comes, and an error that is opened where the file ends. The
only place for this is an argument whose label is the last thing in the file.
-/

namespace SwiftTidy

open Token (significant)

/-- The kinds of nodes that may have no tokens wherever they stand. -/
def Kind.mayBeEmpty : Kind → Bool
  | .functionSignature | .closureSignature | .tupleTypeElement => true
  | _ => false

lemma Tree.eq_map_leaf_of_filter {row : List Tree} (h : row.filter isNode = []) : row = (leavesOf row).map .leaf := by
  induction row with
  | nil => rfl
  | cons tree rest ih =>
    cases tree with
    | leaf token => simpa using ih (by simpa [isNode] using h)
    | node kind children => simp [isNode] at h

/-- Two significant tokens of which the first leads are parted and followed by trivia. -/
lemma exists_of_significant_pair {tokens : List Token} {first second : Token} (h : significant tokens = [first, second])
    (hlead : ∀ token ∈ tokens.head?, token.isTrivia = false) :
    ∃ space trivia, tokens = first :: space ++ second :: trivia ∧ ∀ token ∈ space ++ trivia, token.isTrivia = true := by
  obtain ⟨lead, rest, rfl, hnone, -, hrest⟩ := List.filter_eq_cons_iff.1 h
  obtain ⟨space, trivia, rfl, hspace, -, htrivia⟩ := List.filter_eq_cons_iff.1 hrest
  cases lead with
  | nil =>
    rw [List.filter_eq_nil_iff] at htrivia
    exact ⟨space, trivia, rfl, List.forall_mem_append.2 ⟨by simpa using hspace, by simpa using htrivia⟩⟩
  | cons token lead => simp [hlead token rfl] at hnone

namespace Grammar

open Phrase Test

/-- There is no error without tokens in a row. -/
def Firm (row : List Tree) : Prop := ∀ children, .node .error children ∈ row → Tree.leavesOf children ≠ []

/-- What is said of every node: it has tokens or may have none, and only an argument holds an error without tokens. -/
structure Filled (kind : Kind) (children : List Tree) (behind : List Token) : Prop where
  tokens : Tree.leavesOf children = [] → kind.mayBeEmpty = true ∨ kind = .error ∧ behind = []
  firm : kind ≠ .argument → Firm children

/-! ## Following the procedures -/

namespace View

/-- What is known of the same tokens where a node or a mark opens. -/
def anew (view : View) : View := { view with moved := false, took := false }

/-- What is known behind a node or a mark, from what was known before it and since then. -/
def since (view inner : View) : View := ⟨inner.kinds, inner.ends, false, view.took || inner.took⟩

namespace Describes

variable {view inner : View} {r₀ r r' : List Token}

lemma anew (h : view.Describes r₀ r) {r₁ : List Token} (hsuffix : r <:+ r₁) : view.anew.Describes r₁ r :=
  ⟨hsuffix.length_le, (hsuffix.filter _).length_le, h.kinds, h.ends, nofun, nofun⟩

lemma since (h : view.Describes r₀ r) (hinner : inner.Describes (Grammar.pastGap r) r') :
    (view.since inner).Describes r₀ r' := by
  have hcount := hinner.count_le
  rw [significant_pastGap] at hcount
  refine ⟨hinner.length_le.trans h.pastGap.length_le, hcount.trans h.count_le, hinner.kinds, hinner.ends, nofun, ?_⟩
  intro htook
  obtain htook | htook := Bool.or_eq_true_iff.1 htook
  · exact hcount.trans_lt (h.took htook)
  · have hlt := hinner.took htook
    rw [significant_pastGap] at hlt
    exact hlt.trans_le h.count_le

lemma blind {X : Symbol} (h : view.Describes r₀ r) (hadvances : swiftGuide.Advances X r r') {took : Bool}
    (htook : took = true → (significant r').length < (significant r₀).length) :
    (View.blind false took).Describes r₀ r' :=
  ⟨hadvances.length_le.trans h.length_le, hadvances.count_le.trans h.count_le, fun _ _ => rfl, fun _ => rfl, nofun,
    htook⟩

end Describes

end View

/-- What is known at a point of a phrase. -/
structure Outlook where
  /-- What is known of the coming tokens. -/
  view : View
  /-- Whether there is no error without tokens since the mark. -/
  firm : Bool

/-- Whether a node of some kind may end here. -/
def Outlook.closes (kind : Kind) (outlook : Outlook) : Bool :=
  (outlook.view.took || kind.mayBeEmpty) && (outlook.firm || kind == .argument)

/-- Where a symbol takes a token, as far as it matters here. -/
def Symbol.start : Symbol → Test
  | .closureNames => next .ident
  | X => X.opening

variable {X : Symbol} {kind : Kind} {path : Path} {row after children : List Tree} {s : Progress}

lemma Symbol.start_of_ne (h : X ≠ .closureNames) : X.start = X.opening := by
  cases X with
  | closureNames => exact absurd rfl h
  | _ => rfl

lemma Symbol.holds_start {r : List Token} (hneeds : X.needsOpening = true) (hready : swiftGuide.ready X r) :
    X.start.holds r = true := by
  rw [start_of_ne (by rintro rfl; cases hneeds)]
  exact hready hneeds

/-- Follows a phrase and checks that the nodes which it builds may end where they do. -/
def follow : Phrase Symbol → (Outlook → Bool) → Outlook → Bool
  | .skip, post, o => post o
  | .take, post, o => post ⟨o.view.take, o.firm⟩
  | .call Y, post, o =>
    let firm := Y != .error || !o.view.ends
    let elsewhere := o.view.assume Y.start false
    o.firm && (((o.view.assume Y.start true).dead || post ⟨.blind false (o.view.took || Y.takes), firm⟩) &&
      (elsewhere.dead || (Y.needsOpening || post ⟨if Y.idles then elsewhere else .blind false o.view.took, firm⟩)))
  | .seq first second, post, o => follow first (follow second post) o
  | .choose test yes no, post, o =>
    ((o.view.assume test true).dead || follow yes post { o with view := o.view.assume test true }) &&
      ((o.view.assume test false).dead || follow no post { o with view := o.view.assume test false })
  | .node kind body, post, o =>
    follow body (fun e => e.closes kind && post ⟨o.view.since e.view, o.firm⟩) ⟨o.view.anew, true⟩
  | .mark body, post, o =>
    follow body (fun e => post ⟨o.view.since e.view, o.firm && e.firm⟩) ⟨o.view.anew, true⟩
  | .wrap kind body, post, o => follow body (fun e => e.closes kind && post ⟨e.view, true⟩) o

/-- What a symbol does, if all that is built is as it should be. -/
structure Symbol.Fills (X : Symbol) (s t : Progress) : Prop where
  tokens : t.tokens = s.tokens
  every : t.Every Filled
  firm : (X = .error → significant s.rest ≠ []) → Firm t.built
  count_lt : X = .closureNames → X.start.holds s.rest = true →
    (significant t.rest).length < (significant s.tokens).length

/-- What is known of each step from a symbol to the next one. -/
def Symbol.LeadsOn (X : Symbol) (s t : Progress) : Prop :=
  swiftGuide.ready X s.rest ∧ swiftGuide.Advances X s.rest t.rest ∧ (s.Every Filled → Firm s.built → X.Fills s t)

lemma firm_append {row more : List Tree} (h : Firm row) (hmore : Firm more) : Firm (row ++ more) := fun children hmem =>
  (List.mem_append.1 hmem).elim (h children) (hmore children)

lemma firm_map_leaf (tokens : List Token) : Firm (tokens.map .leaf) := fun children hmem => by simp at hmem

/-- What is known is right: of the tokens since the mark, of the nodes built, and of errors among them. -/
structure Outlook.Holds (o : Outlook) (r₀ : List Token) (s : Progress) : Prop where
  tokens : s.tokens = r₀
  view : o.view.Describes r₀ s.rest
  every : s.Every Filled
  firm : o.firm = true → Firm s.built

namespace Outlook.Holds

variable {o e : Outlook} {r₀ : List Token} {s t : Progress} {kind : Kind}

lemma take (h : o.Holds r₀ s) : Holds ⟨o.view.take, o.firm⟩ r₀ s.flush.shift where
  tokens := by simpa using h.tokens
  view := by simpa [afterTake] using h.view.take
  every := h.every.flush.shift
  firm hfirm := by
    obtain ⟨tokens, htokens⟩ := s.exists_leaves_take
    exact htokens ▸ firm_append (h.firm hfirm) (firm_map_leaf tokens)

lemma opened (h : o.Holds r₀ s) : Holds ⟨o.view.anew, true⟩ (pastGap s.rest) s.flush.fresh where
  tokens := s.flush.tokens_fresh
  view := h.view.pastGap.anew (List.suffix_refl _)
  every := s.flush.every_fresh
  firm _ := by simp [Firm]

/-- A node that may end where it does is as nodes are, and no error without tokens. -/
lemma filled (h : o.Holds r₀ s) (hcloses : o.closes kind = true) :
    Filled kind s.built s.rest ∧ Firm [.node kind s.built] := by
  simp only [closes, Bool.and_eq_true, Bool.or_eq_true, beq_iff_eq] at hcloses
  have hempty : Tree.leavesOf s.built = [] → kind.mayBeEmpty = true := by
    refine fun hnil => hcloses.1.resolve_left fun htook => ?_
    have hlt := h.view.took htook
    rw [← h.tokens, Progress.tokens, hnil, List.nil_append] at hlt
    exact lt_irrefl _ hlt
  refine ⟨⟨fun hnil => .inl (hempty hnil), fun hkind => h.firm (hcloses.2.resolve_right hkind)⟩, ?_⟩
  intro children hnode hnil
  obtain ⟨rfl, rfl⟩ := Tree.node.inj (List.mem_singleton.1 hnode)
  exact absurd (hempty hnil) (by decide)

lemma wrap (h : o.Holds r₀ s) (hcloses : o.closes kind = true) :
    Holds ⟨o.view, true⟩ r₀ ⟨[.node kind s.built], s.rest⟩ where
  tokens := by simpa [Progress.tokens] using h.tokens
  view := h.view
  every := h.every.node (h.filled hcloses).1
  firm _ := (h.filled hcloses).2

lemma mark (h : o.Holds r₀ s) (ht : e.Holds (pastGap s.rest) t) :
    Holds ⟨o.view.since e.view, o.firm && e.firm⟩ r₀ ⟨s.flush.built ++ t.built, t.rest⟩ where
  tokens := by
    have htokens := ht.tokens
    rw [Progress.tokens] at htokens
    rw [← h.tokens, ← Progress.tokens_flush s, Progress.tokens, Progress.tokens, Progress.rest_flush, ← htokens,
      Tree.leavesOf_append, List.append_assoc]
  view := h.view.since ht.view
  every := h.every.mark ht.every (ht.tokens.trans s.flush.tokens_fresh.symm)
  firm hfirm := by
    rw [Bool.and_eq_true] at hfirm
    exact firm_append (firm_append (h.firm hfirm.1) (firm_map_leaf _)) (ht.firm hfirm.2)

variable {Y : Symbol}

lemma call (h : o.Holds r₀ s) (hfirm : o.firm = true) (hleads : Y.LeadsOn s t) {view : View}
    (hview : Y.Fills s t → view.Describes r₀ t.rest) : Holds ⟨view, Y != .error || !o.view.ends⟩ r₀ t := by
  have hfills := hleads.2.2 h.every (h.firm hfirm)
  refine ⟨hfills.tokens.trans h.tokens, hview hfills, hfills.every, fun hends => hfills.firm fun hY hnone => ?_⟩
  simp [hY, h.view.ends (by simp [hnone])] at hends

lemma call_there (h : o.Holds r₀ s) (hfirm : o.firm = true) (hleads : Y.LeadsOn s t)
    (hstart : Y.start.holds s.rest = true) :
    Holds ⟨.blind false (o.view.took || Y.takes), Y != .error || !o.view.ends⟩ r₀ t := by
  refine h.call hfirm hleads fun hfills => ?_
  refine h.view.blind hleads.2.1 fun htook => ?_
  obtain htook | htakes := Bool.or_eq_true_iff.1 htook
  · exact hleads.2.1.count_le.trans_lt (h.view.took htook)
  · by_cases hY : Y = .closureNames
    · exact h.tokens ▸ hfills.count_lt hY hstart
    · rw [Symbol.start_of_ne hY] at hstart
      exact (hleads.2.1.count_lt htakes hstart).trans_le h.view.count_le

lemma call_elsewhere (h : o.Holds r₀ s) (hfirm : o.firm = true) (hleads : Y.LeadsOn s t)
    (hstart : Y.start.holds s.rest = false) (hview : (o.view.assume Y.start false).Describes r₀ s.rest) :
    Holds ⟨if Y.idles then o.view.assume Y.start false else .blind false o.view.took,
      Y != .error || !o.view.ends⟩ r₀ t := by
  refine h.call hfirm hleads fun _ => ?_
  split
  next hidles =>
    rw [Symbol.start_of_ne (by rintro rfl; cases hidles)] at hstart
    exact hleads.2.1.eq_of_idle hidles hstart ▸ hview
  next => exact h.view.blind hleads.2.1 fun htook => hleads.2.1.count_le.trans_lt (h.view.took htook)

end Outlook.Holds

/-- A phrase that passes builds nodes as they are, and what is found at its end holds. -/
lemma wlp_of_follow (phrase : Phrase Symbol) {post : Outlook → Bool} {left : Progress → Prop} {o : Outlook}
    {r₀ : List Token} (h : follow phrase post o = true) (hs : o.Holds r₀ s)
    (hpost : ∀ e t, post e = true → e.Holds r₀ t → left t) : phrase.wlp Symbol.LeadsOn left s := by
  induction phrase generalizing post left o r₀ s with
  | skip => exact hpost o s h hs
  | take => exact hpost _ _ h hs.take
  | call Y =>
    intro t ht
    rw [follow, Bool.and_eq_true] at h
    obtain ⟨hthere, helsewhere⟩ := hs.view.branches h.2
    cases hstart : Y.start.holds s.rest with
    | true => exact hpost _ t (hthere hstart).2 (hs.call_there h.1 ht hstart)
    | false =>
      obtain ⟨hview, hgoes⟩ := helsewhere hstart
      refine hpost _ t ((Bool.or_eq_true_iff.1 hgoes).resolve_left fun hneeds => ?_)
        (hs.call_elsewhere h.1 ht hstart hview)
      simp [Symbol.holds_start hneeds ht.1] at hstart
  | seq first second ih₁ ih₂ => exact ih₁ h hs fun e t he ht => ih₂ he ht hpost
  | choose test yes no ih₁ ih₂ =>
    obtain ⟨hyes, hno⟩ := hs.view.branches h
    exact ⟨fun ht => ih₁ (hyes ht).2 { hs with view := (hyes ht).1 } hpost,
      fun ht => ih₂ (hno ht).2 { hs with view := (hno ht).1 } hpost⟩
  | node kind body ih =>
    refine ih h hs.opened fun e t he ht => ?_
    rw [Bool.and_eq_true] at he
    exact hpost _ _ he.2 (by simpa using hs.mark (ht.wrap he.1))
  | mark body ih => exact ih h hs.opened fun e t he ht => hpost _ _ he (hs.mark ht)
  | wrap kind body ih =>
    refine ih h hs fun e t he ht => ?_
    rw [Bool.and_eq_true] at he
    exact hpost _ _ he.2 (ht.wrap he.1)

/-! ## The symbols -/

namespace Symbol

variable {X : Symbol} {s t : Progress} {answer : Bool}

/-- What is known where a symbol begins, if it takes a token there or not. -/
def outlook (X : Symbol) (answer : Bool) : Outlook := ⟨((View.blind false false).assume X.start answer).anew, true⟩

/-- Whether the procedure of a symbol passes where it takes a token or elsewhere. -/
def fills (X : Symbol) (answer : Bool) : Bool :=
  !answer && X.needsOpening || (X.outlook answer).view.dead ||
    follow (swift X) (fun e => e.firm && (X != .closureNames || !answer || e.view.took)) (X.outlook answer)

lemma holds_outlook (hs : s.Every Filled) (hfirm : Firm s.built) :
    (X.outlook (X.start.holds s.rest)).Holds s.tokens s :=
  ⟨rfl, ((View.Describes.start s.rest).assume X.start).anew (List.suffix_append _ _), hs, fun _ => hfirm⟩

lemma fills_inGroup (opening closing : Kind) (depth : Nat) (answer : Bool) :
    (inGroup opening closing depth).fills answer = true := by
  cases depth <;> cases answer <;>
    simp [fills, outlook, swift, follow, inOrder, firstOf, start, Symbol.opening, sure, View.assume, View.dead,
      View.within, View.blind, View.anew, View.take]

lemma fills_of_barred (h : X.Barred) (answer : Bool) : X.fills answer = true := by
  have hstart : X.start = .sees 0 fun _ => false := by
    rw [start_of_ne (by rintro rfl; obtain ⟨closing, h | h | h⟩ := h.form <;> cases h), opening_of_isPlain h.plain,
      h.sure]
  cases answer <;> simp [fills, h.needs, outlook, hstart, View.assume, View.dead, View.within, View.anew]

lemma fills_swift (X : Symbol) (answer : Bool) :
    X.fills answer = true ∨ X = .error ∧ answer = false ∨ X = .modifiers ∧ answer = true := by
  refine forall_of_listed (P := fun X => ∀ answer, X.fills answer = true ∨ X = .error ∧ answer = false ∨
    X = .modifiers ∧ answer = true) (by decide +kernel) ?_ ?_ X answer
  · exact fun opening closing depth answer => .inl (fills_inGroup opening closing depth answer)
  · exact fun X h answer => .inl (fills_of_barred h answer)

lemma Fills.of_holds {e : Outlook} (h : e.Holds s.tokens t) (hfirm : e.firm = true)
    (hX : X = .closureNames → X.start.holds s.rest = true →
      (significant t.rest).length < (significant s.tokens).length) : X.Fills s t :=
  ⟨h.tokens, h.every, fun _ => h.firm hfirm, hX⟩

/-- An error that is opened where the file ends has no tokens. -/
lemma fills_error (hs : s.Every Filled) (hnone : significant s.rest = []) :
    error.Fills s
      ⟨s.flush.built ++ [.node .error s.flush.fresh.flush.shift.built], s.flush.fresh.flush.shift.rest⟩ := by
  have hpast : pastGap s.rest = [] := pastGap_eq_nil hnone
  have hopened : s.flush.fresh.flush.shift = ⟨[], []⟩ := by
    simp only [Progress.flush, Progress.fresh, Progress.shift, hpast]
    rfl
  have hfilled : Filled .error [] [] := ⟨fun _ => .inr ⟨rfl, rfl⟩, fun _ => by simp [Firm]⟩
  rw [hopened]
  refine ⟨?_, ?_, fun hsome => absurd hnone (hsome rfl), by rintro ⟨⟩⟩
  · rw [← Progress.tokens_flush s]
    simp [Progress.tokens, hpast]
  · exact hs.flush.append (t := ⟨[.node .error []], []⟩) (by simpa [Progress.Every] using hfilled)
      (by simp [Progress.tokens, hpast])

lemma fills_modifiers (hs : s.Every Filled) (hfirm : Firm s.built) (hstart : modifiers.start.holds s.rest = true)
    (ht : modifierList.LeadsOn s.flush.fresh t) :
    modifiers.Fills s ⟨s.flush.built ++ [.node .modifiers t.built], t.rest⟩ := by
  have hholds := holds_outlook (X := modifiers) hs hfirm
  have hlist : modifierList.start.holds s.flush.fresh.rest = true := by
    simpa [start, Symbol.opening, next, nextWord, classModifier] using hstart
  exact .of_holds (hholds.mark ((hholds.opened.call_there rfl ht hlist).wrap rfl)) rfl (by rintro ⟨⟩)

/-- A symbol does what it should if those do that its procedure calls. -/
lemma wlp_fills (hready : swiftGuide.ready X s.rest) :
    (swift X).wlp LeadsOn (fun t => s.Every Filled → Firm s.built → X.Fills s t) s := by
  by_cases hs : s.Every Filled ∧ Firm s.built
  · have hholds := holds_outlook (X := X) hs.1 hs.2
    obtain hfills | ⟨rfl, hanswer⟩ | ⟨rfl, hanswer⟩ := fills_swift X (X.start.holds s.rest)
    · rw [fills, Bool.or_eq_true, Bool.or_eq_true] at hfills
      obtain (hneeds | hdead) | hfollow := hfills
      · rw [Bool.and_eq_true] at hneeds
        simp [holds_start hneeds.2 hready] at hneeds
      · simp [hholds.view.not_dead] at hdead
      · refine wlp_of_follow _ hfollow hholds fun e t he ht _ _ => .of_holds ht (Bool.and_eq_true_iff.1 he).1 ?_
        rintro rfl hident
        rw [hident] at he
        exact ht.view.took (by simpa using (Bool.and_eq_true_iff.1 he).2)
    · exact fun _ _ => fills_error hs.1 (by simpa [start, Symbol.opening, sure, ← List.head?_eq_getElem?] using hanswer)
    · exact fun t ht _ _ => fills_modifiers hs.1 hs.2 hanswer ht
  · exact (swift X).wlp_of_forall (fun t hevery hfirm => absurd ⟨hevery, hfirm⟩ hs) s

end Symbol

lemma fills_file (tokens : List Token) :
    (Symbol.statements .fileEnd).Fills ⟨[], tokens⟩
      (derive swift (openSymbols tokens) (.statements .fileEnd) ⟨[], tokens⟩) := by
  have hready : swiftGuide.ready (.statements .fileEnd) tokens := by simp [Guide.ready, swiftGuide, Symbol.needsOpening]
  exact swiftPlan.derive_induction (fun X s t => s.Every Filled → Firm s.built → X.Fills s t)
    (fun X s hready => Symbol.wlp_fills hready) hready (effort_file tokens) Tree.everyOf_nil (by simp [Firm])

lemma eq_argument_of_void {tokens : List Token} (hnode : (parseTokens tokens).sub? path = some (.node kind row))
    (hmem : .node .error children ∈ row) (hempty : Tree.leavesOf children = []) : kind = .argument := by
  by_contra hkind
  obtain rfl | hpath := eq_or_ne path []
  · obtain ⟨-, rfl⟩ := Tree.node.inj (Option.some.inj hnode)
    exact firm_append ((fills_file tokens).firm nofun) (firm_map_leaf _) children hmem hempty
  · exact (every_of_parse (fills_file tokens).every hpath hnode).firm hkind children hmem hempty

/-! ## Labels at the end of the file -/

lemma CallForm.argument_parts (h : CallForm .argument (row ++ .node kind children :: after)) :
    after = [] ∧ (row = [] ∨ ∃ name colon, row = [.leaf name, .leaf colon] ∧ name.kind.isName = true ∧
      colon.kind = .colon) := by
  obtain ⟨label, values, heq, hlabel, hvalues⟩ := h
  obtain rfl | ⟨name, colon, rfl, hname, hcolon⟩ := hlabel <;> obtain rfl | ⟨value, rfl, -⟩ := hvalues <;>
    simp [List.append_eq_cons_iff, List.cons_eq_append_iff] at heq
  · exact ⟨heq.2.2, .inl heq.1⟩
  · exact ⟨heq.2.2, .inr ⟨name, colon, heq.1, hname, hcolon⟩⟩

/-- An argument with an error without tokens is a label with trivia, and the file ends behind it. -/
lemma argument_of_void {text : String}
    (hnode : (parse text).sub? path = some (.node .argument (row ++ .node .error children :: after)))
    (hempty : Tree.leavesOf children = []) :
    after = [] ∧ (parse text).behind path = [] ∧ ∃ name space colon trivia,
      row = (name :: space ++ colon :: trivia).map .leaf ∧ name.kind.isName = true ∧ colon.kind = .colon ∧
        ∀ token ∈ space ++ trivia, token.isTrivia = true := by
  have hpath : path ≠ [] := ne_nil_of_parse hnode (by simp)
  have hevery := every_sub_of_parse (fills_file (tokensOf text)).every hpath hnode
  obtain ⟨hargument, hrow⟩ := Tree.every_node.1 hevery
  rw [Tree.everyOf_append, Tree.everyOf_cons, Tree.every_node] at hrow
  obtain ⟨hafter, hbehind⟩ := List.append_eq_nil_iff.1 ((hrow.2.1.1.tokens hempty).resolve_left (by decide)).2
  have hform := callForm_of_parse hnode
  rw [Tree.bareOf_append, Tree.bareOf_node_cons] at hform
  obtain ⟨hnone, hlabel⟩ := hform.argument_parts
  have hnil : after = [] := by
    cases after with
    | nil => rfl
    | cons tree rest => cases tree <;> simp at hafter hnone
  subst hnil
  have hleaves : Tree.leavesOf (row ++ [.node .error children]) = Tree.leavesOf row := by simp [hempty]
  have hfirst := not_isTrivia_first_of_parse hnode hpath
  have hsome : Tree.leavesOf row ≠ [] := fun hnil => by
    simpa [Kind.mayBeEmpty] using hargument.tokens (hleaves.trans hnil)
  have hbareLeaves := Tree.leavesOf_bareOf row
  rw [hleaves] at hfirst
  refine ⟨rfl, hbehind, ?_⟩
  obtain hbare | ⟨name, colon, hbare, hname, hcolon⟩ := hlabel
  · obtain ⟨token, rest, htokens⟩ := List.exists_cons_of_ne_nil hsome
    simp [hbare, htokens, significant, hfirst token (by simp [htokens])] at hbareLeaves
  · have hnodes : row.filter Tree.isNode = [] := by
      rw [← List.map_eq_nil_iff (f := Tree.bare), ← Tree.filter_isNode_bareOf, hbare]
      rfl
    obtain ⟨space, trivia, htokens, htrivia⟩ :=
      exists_of_significant_pair (by simpa [hbare] using hbareLeaves.symm) hfirst
    exact ⟨name, space, colon, trivia, htokens ▸ Tree.eq_map_leaf_of_filter hnodes, hname, hcolon, htrivia⟩

end Grammar

open Grammar

/-- A node without tokens is the whole of the empty text, a signature, an element of a tuple type, or an error. The
error is the last child of an argument of which there is only a label, and the file ends behind it. -/
theorem empty_nodes_confined (text : String) (path : Path) (kind : Kind) (children : List Tree)
    (hnode : (parse text).sub? path = some (.node kind children)) (hempty : Tree.leavesOf children = []) :
    path = [] ∧ text = "" ∨ kind ∈ [.functionSignature, .closureSignature, .tupleTypeElement] ∨
      kind = .error ∧ ∃ owner front name space colon trivia,
        path = owner ++ [space.length + trivia.length + 2] ∧
          (parse text).sub? owner =
            some (.node .argument ((name :: space ++ colon :: trivia).map .leaf ++ [.node .error children])) ∧
          name.kind.isName = true ∧ colon.kind = .colon ∧ (∀ token ∈ space ++ trivia, token.isTrivia = true) ∧
          tokensOf text = front ++ (name :: space ++ colon :: trivia) := by
  obtain rfl | ⟨owner, i, rfl⟩ := path.eq_nil_or_concat'
  · have htokens : tokensOf text = [] := by
      rw [← leaves_parseTokens (tokensOf text), ← parse, Option.some.inj hnode, Tree.leaves_node, hempty]
    exact .inl ⟨rfl, by rw [← textOf_tokensOf text, htokens]; rfl⟩
  obtain hkind | ⟨rfl, -⟩ := (every_of_parse (fills_file (tokensOf text)).every (by simp) hnode).tokens hempty
  · exact .inr (.inl (by cases kind <;> simp_all [Kind.mayBeEmpty]))
  obtain ⟨kind, row, howner, hchild⟩ := Tree.exists_owner_of_concat hnode
  obtain rfl := eq_argument_of_void howner (List.mem_of_getElem? hchild) hempty
  obtain ⟨before, after, rfl, rfl⟩ := Tree.exists_append_of_getElem? hchild
  obtain ⟨rfl, hend, name, space, colon, trivia, rfl, hname, hcolon, htrivia⟩ := argument_of_void howner hempty
  obtain ⟨front, hsplit, -⟩ := Tree.exists_startAt_eq howner
  refine .inr (.inr ⟨rfl, owner, front, name, space, colon, trivia, ?_, howner, hname, hcolon, htrivia, ?_⟩)
  · simp [Nat.add_assoc]
  · rw [parse, leaves_parseTokens, ← parse, hend] at hsplit
    simpa [hempty] using hsplit

/-- An argument of which there is a label and a comment. -/
theorem empty_nodes_confined_label :
    let text := "f(a: // b\n"
    (parse text).sub? [0, 1, 1, 5] = some (.node .error []) ∧ ∃ owner front name space colon trivia,
      [0, 1, 1, 5] = owner ++ [space.length + trivia.length + 2] ∧
        (parse text).sub? owner =
          some (.node .argument ((name :: space ++ colon :: trivia).map .leaf ++ [.node .error []])) ∧
        name.kind.isName = true ∧ colon.kind = .colon ∧ (∀ token ∈ space ++ trivia, token.isTrivia = true) ∧
        tokensOf text = front ++ (name :: space ++ colon :: trivia) := by
  intro text
  have hnode : (parse text).sub? [0, 1, 1, 5] = some (.node .error []) := by decide +kernel
  have hconfined := empty_nodes_confined text _ _ [] hnode rfl
  simp only [List.cons_ne_nil, false_and, false_or] at hconfined
  exact ⟨hnode, (hconfined.resolve_left (by decide)).2⟩

end SwiftTidy

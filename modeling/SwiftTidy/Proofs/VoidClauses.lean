import SwiftTidy.Proofs.Forms
import SwiftTidy.Proofs.Surroundings

/-!
# How empty types are written

Whether the type of a return clause is the empty one is decided on the tree of the type. Here it is told from the tokens
of the clause: one may write `Void`, or parentheses with nothing but commas in between, and where the file ends the
closing one may be missing (`SpellsVoid`). So the rule against such clauses objects exactly to those in signatures that
are written so (`Rules.mem_sitePaths_voidReturn`).
-/

namespace SwiftTidy

open Token (significant)

/-! ## Spelling -/

/-- The tokens spell the empty type, where the others come behind them. -/
def SpellsVoid (tokens behind : List Token) : Prop :=
  tokens = [⟨.ident, "Void"⟩] ∨
    ∃ opening commas, opening.kind = .lparen ∧ (∀ comma ∈ commas, comma.kind = .comma) ∧
      (tokens = opening :: commas ∧ behind = [] ∨
        ∃ closing, closing.kind = .rparen ∧ tokens = opening :: (commas ++ [closing]))

/-- A token that occurs in no spelling of the empty type. -/
def Token.IsForeign (token : Token) : Prop :=
  token ≠ ⟨.ident, "Void"⟩ ∧ token.kind ≠ .lparen ∧ token.kind ≠ .comma ∧ token.kind ≠ .rparen

lemma Token.isForeign_of_kind {token : Token} (h : token.kind ∉ [.ident, .lparen, .comma, .rparen]) :
    token.IsForeign := by
  simp only [List.mem_cons, List.not_mem_nil, or_false, not_or] at h
  refine ⟨?_, h.2⟩
  rintro rfl
  exact h.1 rfl

namespace SpellsVoid

variable {tokens behind : List Token} {token opening : Token}

lemma not_isForeign (h : SpellsVoid tokens behind) (htoken : token ∈ tokens) : ¬ token.IsForeign := by
  rintro ⟨hvoid, hopening, hcomma, hclosing⟩
  obtain rfl | ⟨first, commas, hfirst, hcommas, ⟨rfl, -⟩ | ⟨last, hlast, rfl⟩⟩ := h
  · exact hvoid (by simpa using htoken)
  · rcases List.mem_cons.1 htoken with rfl | hmem
    · exact hopening hfirst
    · exact hcomma (hcommas token hmem)
  · simp only [List.mem_cons, List.mem_append, List.not_mem_nil, or_false] at htoken
    obtain rfl | hmem | rfl := htoken
    · exact hopening hfirst
    · exact hcomma (hcommas token hmem)
    · exact hclosing hlast

lemma of_lparen (h : SpellsVoid (opening :: tokens) behind) (hopening : opening.kind = .lparen) :
    ∃ commas : List Token, (∀ comma ∈ commas, comma.kind = .comma) ∧
      (tokens = commas ∧ behind = [] ∨ ∃ closing, closing.kind = .rparen ∧ tokens = commas ++ [closing]) := by
  obtain hvoid | ⟨first, commas, -, hcommas, ⟨htokens, hnil⟩ | ⟨last, hlast, htokens⟩⟩ := h
  · obtain ⟨rfl, -⟩ := List.cons.inj hvoid
    simp at hopening
  · exact ⟨commas, hcommas, .inl ⟨(List.cons.inj htokens).2, hnil⟩⟩
  · exact ⟨commas, hcommas, .inr ⟨last, hlast, (List.cons.inj htokens).2⟩⟩

end SpellsVoid

namespace Grammar

open Phrase Test SwiftTidy.Tree

variable {n : Nat} {s t : Stage} {kind : Kind} {children : List Tree} {behind : List Token}

/-- A node is a type, and it is the empty one exactly if it is written so. -/
def Spelled (kind : Kind) (children : List Tree) (behind : List Token) : Prop :=
  kind.isType = true ∧ ∀ path, Part.isVoid ⟨path, .node kind children⟩ = true ↔ SpellsVoid (leavesOf children) behind

/-- A node is a type other than a name or a tuple, and has a token that tells. -/
def Composite (kind : Kind) (children : List Tree) : Prop :=
  kind.isType = true ∧ kind ≠ .simpleType ∧ kind ≠ .tupleType ∧ ∃ token ∈ leavesOf children, token.IsForeign

lemma Composite.spelled (h : Composite kind children) (behind : List Token) : Spelled kind children behind := by
  obtain ⟨htype, hsimple, htuple, token, htoken, hforeign⟩ := h
  refine ⟨htype, fun path => ⟨fun hvoid => ?_, fun hspells => absurd hforeign (hspells.not_isForeign htoken)⟩⟩
  cases kind <;>
    simp_all [Part.isVoid, Part.typeForm?, TypeForm.ofKind?, Part.kind, Tree.kind, Tree.isNode, Kind.isType]

/-! ## Types -/

/-- Generic arguments are a node with an angle bracket. -/
lemma leadsIn_genericArgs (h : LeadsIn n (.call .genericArgs) s t)
    (hs : (joined .langle).reply s.row.lead s.row.tokens = true) :
    ∃ inner, t.built = s.built ++ [.node .genericArgs inner] ∧ ∃ token ∈ leavesOf inner, token.kind = .langle := by
  cases n with
  | zero => simp at h
  | succ n =>
    simp only [leadsIn_call, swift, leadsIn_node, leadsIn_inOrder_cons, leadsIn_inOrder_nil, leadsIn_take,
      exists_eq_left, exists_eq_right'] at h
    obtain ⟨u, ⟨m, hlist, hclosing⟩, rfl⟩ := h
    simp only [joined, reply, Bool.and_eq_true] at hs
    obtain ⟨token, rest, htokens, hkind⟩ := exists_of_next hs.1
    exact ⟨u.built, rfl, token, (hlist.onward.trans hclosing.onward).head_mem htokens, hkind⟩

lemma leadsIn_simpleType (h : LeadsIn n (.call .simpleType) s t)
    (hs : (next .ident).reply s.row.lead s.row.tokens = true) :
    ∃ children, t.built = s.built ++ [.node .simpleType children] ∧ Spelled .simpleType children t.row.tokens := by
  cases n with
  | zero => simp at h
  | succ n =>
    simp only [leadsIn_call, swift, leadsIn_node, leadsIn_inOrder_cons, leadsIn_inOrder_nil, leadsIn_opt, leadsIn_take,
      exists_eq_left, exists_eq_right'] at h
    obtain ⟨u, hgeneric, rfl⟩ := h
    obtain ⟨token, rest, htokens, hkind⟩ := exists_of_next hs
    have htake : s.opened.take.built = [.leaf token] := by simpa using (take_of_cons (s := s.opened) htokens).1
    refine ⟨u.built, rfl, rfl, fun path => ?_⟩
    rcases hgeneric with ⟨hangle, h⟩ | ⟨-, rfl⟩
    · -- generic arguments, which no spelling of the empty type has
      obtain ⟨inner, hbuilt, angle, hmem, hangle⟩ := leadsIn_genericArgs h hangle
      rw [hbuilt, htake]
      constructor
      · intro hvoid
        simp [Part.isVoid, Part.typeForm?, TypeForm.ofKind?, Part.genericArguments?, Part.node?, Part.nodes,
          Part.children, Part.kind, Tree.kind, Tree.isNode, Tree.children] at hvoid
      · intro hspells
        have hforeign : angle.IsForeign := Token.isForeign_of_kind (by simp [hangle])
        exact absurd hforeign (hspells.not_isForeign (by simp [hmem]))
    · rw [htake]
      have hvoid : Part.isVoid ⟨path, .node .simpleType [.leaf token]⟩ = (token.text == "Void") := by
        simp [Part.isVoid, Part.typeForm?, TypeForm.ofKind?, Part.typeName?, Part.genericArguments?, Part.node?,
          Part.nodes, Part.children, Part.kind, Tree.kind, Tree.isNode, Tree.children, Tree.childTokens, Tree.token?,
          hkind]
      rw [hvoid, beq_iff_eq]
      constructor
      · rintro hvoid
        exact .inl (by simp [← hkind, ← hvoid])
      · rintro (hspelled | ⟨opening, commas, hopening, -, ⟨hspelled, -⟩ | ⟨closing, -, hspelled⟩⟩)
        · simpa using congrArg Token.text (List.cons.inj hspelled).1
        all_goals
          obtain ⟨rfl, -⟩ := List.cons.inj hspelled
          simp [hkind] at hopening

lemma leadsIn_tupleElement (h : LeadsIn n (.call .tupleElement) s t) :
    ∃ inner, t.built = s.built ++ [.node .tupleTypeElement inner] := by
  cases n with
  | zero => simp at h
  | succ n =>
    simp only [leadsIn_call, swift, leadsIn_choose, leadsIn_node] at h
    obtain ⟨-, u, -, rfl⟩ | ⟨-, u, -, rfl⟩ := h
    · exact ⟨u.built, rfl⟩
    · exact ⟨u.built, rfl⟩

/-- What stands in a tuple holds an element. Then there is a token other than a comma, unless the tuple ends before one
that cannot be part of a type. -/
def HoldsElement (added : List Tree) (behind : List Token) : Prop :=
  (∃ inner, .node .tupleTypeElement inner ∈ added) ∧
    ((∃ token ∈ leavesOf added, token.kind ≠ .comma ∧ token.kind ≠ .rparen) ∨
      (∀ token ∈ leavesOf added, token.kind = .comma) ∧ ∃ token ∈ behind.head?, token.kind ≠ .rparen)

/-- There is nothing in a tuple but commas, up to a closing parenthesis or the end. -/
def HoldsCommas (added : List Tree) (behind : List Token) : Prop :=
  ∃ commas : List Token, added = commas.map .leaf ∧ (∀ comma ∈ commas, comma.kind = .comma) ∧
    ∀ token ∈ behind.head?, token.kind = .rparen

variable {added : List Tree} {m u : Stage} {phrase : Phrase Symbol} {rest : List Token} {token : Token}

/-- An element makes the difference, even an empty one. -/
lemma holdsElement_cons {inner : List Tree}
    (htokens : leavesOf (.node .tupleTypeElement inner :: added) ++ behind = token :: rest)
    (hcomma : token.kind ≠ .comma) (hclosing : token.kind ≠ .rparen)
    (hadded : added = [] ∨ HoldsCommas added behind ∨ HoldsElement added behind) :
    HoldsElement (.node .tupleTypeElement inner :: added) behind := by
  refine ⟨⟨inner, by simp⟩, ?_⟩
  rw [leavesOf_cons, leaves_node] at htokens ⊢
  cases hinner : leavesOf inner with
  | cons first others =>
    obtain ⟨rfl, -⟩ : first = token ∧ _ := by simpa [hinner] using htokens
    exact .inl ⟨first, by simp, hcomma, hclosing⟩
  | nil =>
    rw [hinner, List.nil_append] at htokens
    obtain rfl | ⟨commas, rfl, hcommas, hhead⟩ | ⟨-, ⟨other, hother, hkinds⟩ | ⟨hcommas, hhead⟩⟩ := hadded
    · have hbehind : behind = token :: rest := by simpa using htokens
      exact .inr ⟨by simp, token, by simp [hbehind], hclosing⟩
    · -- the next token is neither a comma nor a closing parenthesis
      exfalso
      rw [leavesOf_map_leaf] at htokens
      cases commas with
      | nil => exact hclosing (hhead token (by simpa using congrArg List.head? htokens))
      | cons comma commas =>
        obtain ⟨rfl, -⟩ := List.cons.inj htokens
        exact hcomma (hcommas comma (by simp))
    · exact .inl ⟨other, by simp [hother], hkinds⟩
    · exact .inr ⟨by simpa using hcommas, hhead⟩

/-- A tuple holds commas only, or it holds an element. -/
lemma leadsIn_tupleElements (h : LeadsIn n (.call .tupleElements) s t) :
    ∃ added, t.built = s.built ++ added ∧ (HoldsCommas added t.row.tokens ∨ HoldsElement added t.row.tokens) := by
  induction n generalizing s with
  | zero => simp at h
  | succ n ih =>
    simp only [leadsIn_call, swift, leadsIn_firstOf_cons, leadsIn_firstOf_nil, leadsIn_inOrder_cons,
      leadsIn_inOrder_nil, leadsIn_take, leadsIn_skip, exists_eq_left, exists_eq_right'] at h
    obtain ⟨hclosing, rfl⟩ | ⟨hclosing, ⟨hcomma, h⟩ | ⟨hcomma, ⟨hsome, m, helement, h⟩ | ⟨hend, rfl⟩⟩⟩ := h
    · obtain ⟨token, rest, htokens, hkind⟩ := exists_of_next hclosing
      exact ⟨[], by simp, .inl ⟨[], by simp, by simp, by simpa [htokens] using hkind⟩⟩
    · obtain ⟨token, rest, htokens, hkind⟩ := exists_of_next hcomma
      obtain ⟨added, hbuilt, hadded⟩ := ih h
      refine ⟨.leaf token :: added, by rw [hbuilt, (take_of_cons htokens).1]; simp, ?_⟩
      obtain ⟨commas, rfl, hcommas, hhead⟩ | ⟨⟨inner, hinner⟩, ⟨other, hother, hkinds⟩ | ⟨hcommas, hhead⟩⟩ := hadded
      · exact .inl ⟨token :: commas, by simp, by simpa [hkind] using hcommas, hhead⟩
      · exact .inr ⟨⟨inner, by simp [hinner]⟩, .inl ⟨other, by simp [hother], hkinds⟩⟩
      · exact .inr ⟨⟨inner, by simp [hinner]⟩, .inr ⟨by simpa [hkind] using hcommas, hhead⟩⟩
    · obtain ⟨inner, hbuilt⟩ := leadsIn_tupleElement helement
      obtain ⟨added, hadded, hcases⟩ : ∃ added, t.built = m.built ++ added ∧
          (added = [] ∨ HoldsCommas added t.row.tokens ∨ HoldsElement added t.row.tokens) := by
        obtain ⟨-, h⟩ | ⟨-, rfl⟩ := leadsIn_opt.1 h
        · obtain ⟨added, hadded, hcases⟩ := ih h
          exact ⟨added, hadded, .inr hcases⟩
        · exact ⟨[], by simp, .inl rfl⟩
      obtain ⟨taken, hleaves, htaken⟩ := helement.onward.trans h.onward
      have hnew : leavesOf (.node .tupleTypeElement inner :: added) = taken := by simpa [hadded, hbuilt] using hleaves
      refine ⟨.node .tupleTypeElement inner :: added, by simp [hadded, hbuilt], .inr ?_⟩
      cases htokens : s.row.tokens with
      | nil => simp [someToken, reply, htokens] at hsome
      | cons token rest =>
        refine holdsElement_cons (by rw [hnew, ← htaken, htokens]) ?_ ?_ hcases
        · simpa [next, reply, htokens] using hcomma
        · simpa [next, reply, htokens] using hclosing
    · cases htokens : t.row.tokens with
      | nil => exact ⟨[], by simp, .inl ⟨[], by simp⟩⟩
      | cons token rest => simp [someToken, reply, htokens] at hend

lemma isVoid_tupleType (path : Path) : Part.isVoid ⟨path, .node .tupleType children⟩ = true ↔
    ∀ inner, .node .tupleTypeElement inner ∉ children := by
  let part : Part := ⟨path, .node .tupleType children⟩
  have hvoid : part.isVoid = part.tupleElements.isEmpty := rfl
  have helements : part.tupleElements.map Part.tree =
      children.filter fun child => child.isNode && child.kind == .tupleTypeElement :=
    part.map_filter_nodes fun child => child.kind == .tupleTypeElement
  rw [hvoid, List.isEmpty_iff, ← List.map_eq_nil_iff (f := Part.tree), helements, List.filter_eq_nil_iff]
  constructor
  · intro h inner hinner
    exact h _ hinner rfl
  · intro h child hchild hkind
    rw [Bool.and_eq_true, beq_iff_eq] at hkind
    obtain ⟨inner, rfl⟩ := exists_node_of_kind hkind.1 hkind.2
    exact h inner hchild

/-- A tuple with an element does not spell the empty type, closed or not. -/
lemma HoldsElement.not_spellsVoid {opening : Token} (h : HoldsElement added s.row.tokens)
    (hopening : opening.kind = .lparen) (hs : s.built = .leaf opening :: added)
    (haccept : LeadsIn n (accept .rparen) s t) : ¬ SpellsVoid (leavesOf t.built) t.row.tokens := by
  intro hspells
  obtain ⟨closings, ht, hclosings⟩ : ∃ closings : List Token,
      leavesOf t.built = opening :: (leavesOf added ++ closings) ∧
      ((∃ token ∈ s.row.tokens.head?, token.kind = .rparen) ∨ closings = [] ∧ t = s) := by
    obtain ⟨closing, hhead, hkind, ht⟩ | ⟨-, rfl⟩ := leadsIn_accept haccept
    · exact ⟨[closing], by simp [ht, hs], .inl ⟨closing, hhead, hkind⟩⟩
    · exact ⟨[], by simp [hs], .inr ⟨rfl, rfl⟩⟩
  rw [ht] at hspells
  obtain ⟨commas, hcommas, hspells⟩ := hspells.of_lparen hopening
  obtain ⟨other, hmem, hcomma, hclosing⟩ | ⟨hall, token, htoken, hkind⟩ := h.2
  · -- a token that is neither a comma nor the closing parenthesis
    have hmem : other ∈ leavesOf added ++ closings := List.mem_append_left _ hmem
    obtain ⟨hspells, -⟩ | ⟨last, hlast, hspells⟩ := hspells
    · exact hcomma (hcommas other (hspells ▸ hmem))
    · rw [hspells, List.mem_append, List.mem_singleton] at hmem
      obtain hmem | rfl := hmem
      · exact hcomma (hcommas other hmem)
      · exact hclosing hlast
  · -- commas only, and a token behind them that does not close the tuple
    obtain ⟨closing, hhead, hclosing⟩ | ⟨rfl, rfl⟩ := hclosings
    · obtain rfl : closing = token := Option.mem_unique hhead htoken
      exact hkind hclosing
    · obtain ⟨-, hend⟩ | ⟨last, hlast, hspells⟩ := hspells
      · simp [hend] at htoken
      · have hcomma := hall last (by simpa using congrArg (last ∈ ·) hspells)
        rw [hlast] at hcomma
        cases hcomma

lemma leadsIn_tupleType (h : LeadsIn n (.call .tupleType) s t)
    (hs : (next .lparen).reply s.row.lead s.row.tokens = true) :
    ∃ children, t.built = s.built ++ [.node .tupleType children] ∧ Spelled .tupleType children t.row.tokens := by
  cases n with
  | zero => simp at h
  | succ n =>
    simp only [leadsIn_call, swift, leadsIn_node, leadsIn_inOrder_cons, leadsIn_inOrder_nil, leadsIn_take,
      exists_eq_left, exists_eq_right'] at h
    obtain ⟨u, ⟨m, helements, haccept⟩, rfl⟩ := h
    obtain ⟨opening, rest, htokens, hopening⟩ := exists_of_next hs
    have htake : s.opened.take.built = [.leaf opening] := by simpa using (take_of_cons (s := s.opened) htokens).1
    obtain ⟨added, hm, hadded⟩ := leadsIn_tupleElements helements
    rw [htake, List.singleton_append] at hm
    refine ⟨u.built, rfl, rfl, fun path => ?_⟩
    rw [isVoid_tupleType]
    obtain ⟨commas, rfl, hcommas, hhead⟩ | helement := hadded
    · obtain ⟨closing, -, hkind, hu⟩ | ⟨hnone, rfl⟩ := leadsIn_accept haccept
      · refine iff_of_true (by simp [hu, hm]) (.inr ⟨opening, commas, hopening, hcommas, .inr ⟨closing, hkind, ?_⟩⟩)
        simp [hu, hm]
      · have hend : u.row.tokens = [] := by
          cases hu : u.row.tokens with
          | nil => rfl
          | cons token others => exact absurd (hhead token (by simp [hu])) (hnone token (by simp [hu]))
        exact iff_of_true (by simp [hm]) (.inr ⟨opening, commas, hopening, hcommas, .inl ⟨by simp [hm], hend⟩⟩)
    · refine iff_of_false (fun hnone => ?_) (helement.not_spellsVoid hopening hm haccept)
      obtain ⟨inner, hinner⟩ := helement.1
      refine hnone inner ?_
      obtain ⟨closing, -, -, hu⟩ | ⟨-, rfl⟩ := leadsIn_accept haccept <;> simp [*]

/-- Types in brackets have the bracket. -/
lemma leadsIn_collectionType (h : LeadsIn n (.call .collectionType) s t) (hs : s.row.tokens = token :: rest)
    (hkind : token.kind = .lbracket) :
    ∃ kind children, t.built = s.built ++ [.node kind children] ∧ Composite kind children := by
  have hforeign : token.IsForeign := Token.isForeign_of_kind (by simp [hkind])
  cases n with
  | zero => simp at h
  | succ n =>
    simp only [leadsIn_call, swift, leadsIn_mark, leadsIn_choose, leadsIn_inOrder_cons, leadsIn_inOrder_nil,
      leadsIn_take, leadsIn_wrap, leadsIn_skip, exists_eq_left, exists_eq_right'] at h
    obtain ⟨u, ⟨m, htype, hrest⟩, rfl⟩ := h
    obtain ⟨-, v, hvalue, w, haccept, rfl⟩ | ⟨-, w, haccept, rfl⟩ := hrest
    · have honward := htype.onward.trans ((Stage.Onward.take m).trans (hvalue.onward.trans haccept.onward))
      exact ⟨_, _, rfl, rfl, by simp, by simp, token, honward.head_mem (s := s.opened) hs, hforeign⟩
    · have honward := htype.onward.trans haccept.onward
      exact ⟨_, _, rfl, rfl, by simp, by simp, token, honward.head_mem (s := s.opened) hs, hforeign⟩

/-- What may follow a type makes another one of it, which has a token that tells. -/
lemma leadsIn_typeSuffixes (h : LeadsIn n (.call .typeSuffixes) s t) :
    t = s ∨ ∃ kind children, t.built = [.node kind children] ∧ Composite kind children := by
  induction n generalizing s with
  | zero => simp at h
  | succ n ih =>
    have hwrapped : ∀ (mark kind : Kind) (u : Stage), (next mark).reply s.row.lead s.row.tokens = true →
        mark ∉ [.ident, .lparen, .comma, .rparen] → kind.isType = true → kind ≠ .simpleType → kind ≠ .tupleType →
        s.take.Onward u → LeadsIn n (.call .typeSuffixes) ⟨[.node kind u.built], u.row⟩ t →
        ∃ kind children, t.built = [.node kind children] ∧ Composite kind children := by
      intro mark kind u hnext hmark htype hsimple htuple honward h
      obtain ⟨token, rest, htokens, rfl⟩ := exists_of_next hnext
      obtain rfl | hmore := ih h
      · have hforeign := Token.isForeign_of_kind hmark
        exact ⟨kind, u.built, rfl, htype, hsimple, htuple, token, honward.head_mem htokens, hforeign⟩
      · exact hmore
    simp only [leadsIn_call, swift, leadsIn_firstOf_cons, leadsIn_firstOf_nil, leadsIn_inOrder_cons,
      leadsIn_inOrder_nil, leadsIn_take, leadsIn_wrap, leadsIn_skip, exists_eq_left, exists_eq_right', joined, reply,
      Bool.and_eq_true] at h
    obtain ⟨hnext, h⟩ | ⟨-, ⟨hnext, h⟩ | ⟨-, ⟨hnext, m, ⟨u, hgeneric, rfl⟩, h⟩ | ⟨-, rfl⟩⟩⟩ := h
    · exact .inr (hwrapped _ _ s.take hnext.1 (by simp) rfl (by simp) (by simp) (.refl _) h)
    · exact .inr (hwrapped _ _ s.take hnext.1 (by simp) rfl (by simp) (by simp) (.refl _) h)
    · have honward := (Stage.Onward.take _).trans hgeneric.onward
      exact .inr (hwrapped _ _ u hnext.1 (by simp) rfl (by simp) (by simp) honward h)
    · exact .inl rfl

/-- An arrow makes a function of a type. -/
lemma leadsIn_functionType (harrow : arrowAhead.reply s.row.lead s.row.tokens = true)
    (heffects : LeadsIn n (.call .effects) s m) (hresult : LeadsIn n phrase m.take u) :
    Composite .functionType u.built := by
  obtain ⟨token, rest, htokens, hkind⟩ : ∃ token rest, s.row.tokens = token :: rest ∧
      token.kind ∉ [.ident, .lparen, .comma, .rparen] := by
    simp only [arrowAhead, reply, Bool.or_eq_true, Bool.and_eq_true] at harrow
    obtain harrow | ⟨heffect, -⟩ := harrow
    · obtain ⟨token, rest, htokens, hkind⟩ := exists_of_next harrow
      exact ⟨token, rest, htokens, by simp [hkind]⟩
    · obtain ⟨token, rest, htokens, hkind⟩ := exists_of_nextAny heffect
      refine ⟨token, rest, htokens, ?_⟩
      simp only [List.mem_cons, List.not_mem_nil, or_false] at hkind
      obtain hkind | hkind := hkind <;> simp [hkind]
  have hmem := heffects.onward.head_mem_of_take hresult.onward htokens
  exact ⟨rfl, by simp, by simp, token, hmem, Token.isForeign_of_kind hkind⟩

/-- An attribute or a word in front is part of a type and tells. -/
lemma leadsIn_attributedType (hs : s.row.tokens = token :: rest) (hforeign : token.IsForeign)
    (hfirst : m = s.take ∨ LeadsIn n (.call .attributeNode) s m) (htype : LeadsIn n phrase m u) :
    Composite .attributedType u.built := by
  refine ⟨rfl, by simp, by simp, token, ?_, hforeign⟩
  obtain rfl | hattribute := hfirst
  · exact htype.onward.head_mem hs
  · cases n with
    | zero => simp at hattribute
    | succ n =>
      simp only [leadsIn_call, swift, leadsIn_node, leadsIn_inOrder_cons, leadsIn_inOrder_nil, leadsIn_take,
        exists_eq_left, exists_eq_right'] at hattribute
      obtain ⟨v, hgroup, rfl⟩ := hattribute
      have hmem : token ∈ leavesOf v.built := hgroup.onward.head_mem (s := s.opened) hs
      exact htype.onward.mem (by simp [hmem])

lemma isForeign_of_nextWord {lead : Pause} {tokens : List Token}
    (h : (nextWord typeSpecifiers).reply lead tokens = true) :
    ∃ token rest, tokens = token :: rest ∧ token.IsForeign := by
  simp only [nextWord, reply, Bool.and_eq_true] at h
  obtain ⟨token, rest, rfl, hkind⟩ := exists_of_next h.1
  refine ⟨token, rest, rfl, ?_, by simp [hkind], by simp [hkind], by simp [hkind]⟩
  rintro rfl
  simp [typeSpecifiers] at h

/-- A type is one node, which is the empty type exactly if it is written so. -/
lemma leadsIn_type (h : LeadsIn n (.call .type) s t) :
    t = s ∨ ∃ kind children, t.built = s.built ++ [.node kind children] ∧ Spelled kind children t.row.tokens := by
  cases n with
  | zero => simp at h
  | succ n =>
    simp only [leadsIn_call, swift, typePhrase, leadsIn_opt, leadsIn_mark, leadsIn_firstOf_cons, leadsIn_firstOf_nil,
      leadsIn_node, leadsIn_inOrder_cons, leadsIn_inOrder_nil, leadsIn_take, leadsIn_wrap, Stage.opened_opened,
      exists_eq_left, exists_eq_right', Stage.tokens_opened] at h
    obtain ⟨hstart, u, hcases, rfl⟩ | ⟨-, rfl⟩ := h
    swap
    · exact .inl rfl
    refine .inr ?_
    suffices hnode : ∃ kind children, u.built = [.node kind children] ∧ Spelled kind children u.row.tokens by
      obtain ⟨kind, children, hbuilt, hspelled⟩ := hnode
      exact ⟨kind, children, by simp [hbuilt], hspelled⟩
    obtain ⟨hattribute, v, ⟨m, hnode, htype⟩, rfl⟩ | ⟨hattribute, hcases⟩ := hcases
    · obtain ⟨token, rest, htokens, hkind⟩ := exists_of_next hattribute
      have hforeign : token.IsForeign := Token.isForeign_of_kind (by simp [hkind])
      exact ⟨_, _, rfl, (leadsIn_attributedType (s := s.opened) htokens hforeign (.inr hnode) htype).spelled _⟩
    obtain ⟨hword, v, htype, rfl⟩ | ⟨-, m, hbase, m', hsuffixes, harrow⟩ := hcases
    · obtain ⟨token, rest, htokens, hforeign⟩ := isForeign_of_nextWord hword
      exact ⟨_, _, rfl, (leadsIn_attributedType (s := s.opened) htokens hforeign (.inl rfl) htype).spelled _⟩
    · have hm : ∃ kind children, m.built = [.node kind children] ∧ Spelled kind children m.row.tokens := by
        obtain ⟨hident, hsimple⟩ | ⟨hident, ⟨hlparen, htuple⟩ | ⟨hlparen, hcollection⟩⟩ := hbase
        · obtain ⟨children, hbuilt, hspelled⟩ := leadsIn_simpleType hsimple hident
          exact ⟨_, children, by simpa using hbuilt, hspelled⟩
        · obtain ⟨children, hbuilt, hspelled⟩ := leadsIn_tupleType htuple hlparen
          exact ⟨_, children, by simpa using hbuilt, hspelled⟩
        · obtain ⟨token, rest, htokens, hkind⟩ := exists_of_nextAny hstart
          have hbracket : token.kind = .lbracket := by
            simp only [next, reply, htokens, List.getElem?_cons_zero, Option.any_some, beq_eq_false_iff_ne]
              at hident hlparen hattribute
            simpa [hident, hlparen, hattribute] using hkind
          obtain ⟨kind, children, hbuilt, hcomposite⟩ :=
            leadsIn_collectionType (s := s.opened) hcollection htokens hbracket
          exact ⟨kind, children, by simpa using hbuilt, hcomposite.spelled _⟩
      have hm' : ∃ kind children, m'.built = [.node kind children] ∧ Spelled kind children m'.row.tokens := by
        obtain rfl | ⟨kind, children, hbuilt, hcomposite⟩ := leadsIn_typeSuffixes hsuffixes
        · exact hm
        · exact ⟨kind, children, hbuilt, hcomposite.spelled _⟩
      obtain ⟨harrow, v, ⟨w, heffects, hresult⟩, rfl⟩ | ⟨-, rfl⟩ := harrow
      · exact ⟨_, _, rfl, (leadsIn_functionType harrow heffects hresult).spelled _⟩
      · exact hm'

/-! ## Return clauses -/

/-- If a node is a return clause, its type is the empty one exactly if it is written so. -/
def ClauseSpelled (kind : Kind) (children : List Tree) (behind : List Token) : Prop :=
  kind = .returnClause → (Rules.isVoidClause (.node kind children) = true ↔
    ∃ arrow tokens, leavesOf children = arrow :: tokens ∧ arrow.kind = .arrow ∧ SpellsVoid tokens behind)

lemma clauseSpelled_of_leads (h : LeadsIn n (.call .type) s.opened.take t)
    (hs : (next .arrow).reply s.row.lead s.row.tokens = true) : ClauseSpelled .returnClause t.built t.row.tokens := by
  intro _
  obtain ⟨arrow, rest, htokens, hkind⟩ := exists_of_next hs
  have htake : s.opened.take.built = [.leaf arrow] := by simpa using (take_of_cons (s := s.opened) htokens).1
  obtain rfl | ⟨kind, children, hbuilt, htype, hspelled⟩ := leadsIn_type h
  · rw [htake]
    refine iff_of_false (by simp [Rules.isVoidClause, Part.type?, Part.types, Part.nodes, Part.children, Tree.children,
      isNode]) ?_
    rintro ⟨first, tokens, htokens, -, hspells⟩
    obtain ⟨-, rfl⟩ : _ ∧ [] = tokens := by simpa using htokens
    simp [SpellsVoid] at hspells
  · have hvoid : Rules.isVoidClause (.node .returnClause [.leaf arrow, .node kind children]) =
        Part.isVoid ⟨[1], .node kind children⟩ := by
      simp [Rules.isVoidClause, Part.type?, Part.types, Part.nodes, Part.children, Part.kind, Tree.children, Tree.kind,
        isNode, htype]
    rw [hbuilt, htake, List.singleton_append, hvoid, hspelled]
    constructor
    · intro hspells
      exact ⟨arrow, leavesOf children, by simp, hkind, hspells⟩
    · rintro ⟨first, tokens, htokens, -, hspells⟩
      obtain ⟨-, rfl⟩ : _ ∧ leavesOf children = tokens := by simpa using htokens
      exact hspells

lemma plain_swift {X : Symbol} (h : X ≠ .returnClause) :
    (swift X).plain (· == .returnClause) (fun _ => false) = true := by
  cases X with
  | inGroup opening closing depth => cases depth <;> rfl
  | returnClause => exact absurd rfl h
  | _ => rfl

lemma every_clauseSpelled (tokens : List Token) :
    (parseTokens tokens).Every
      (fun kind children behind => ClauseSpelled kind (bareOf children) (significant behind)) [] := by
  have hP : ∀ kind children behind, (kind == .returnClause) = false → ClauseSpelled kind children behind := by
    intro kind children behind hkind hclause
    simp [hclause] at hkind
  refine Tree.every_of_bare (every_bare_parseTokens tokens (fun children => hP _ _ _ rfl) fun n s t h hs => ?_)
  refine LeadsIn.every (· == .returnClause) (fun _ => false) (fun _ _ => True) hP (fun _ _ _ => trivial) ?_ h trivial hs
  intro n X s t hplain hcalls h _ hs
  obtain rfl : X = .returnClause := by
    by_contra hX
    simp [plain_swift hX] at hplain
  obtain ⟨hnext, h⟩ | ⟨-, rfl⟩ := leadsIn_opt.1 h
  · obtain ⟨u, hbody, rfl⟩ := leadsIn_node.1 h
    refine hs.node hbody.onward ?_ (clauseSpelled_of_leads (by simpa using hbody) hnext)
    exact hbody.every_of_plain _ (fun _ => false) hP rfl (fun Y s t _ h => hcalls Y s t h trivial) (.opened s)
  · exact hs

end Grammar

namespace Rules

lemma isSome_inClosure? {closures : Bool} {tree : Tree} {path : Path} :
    (VoidReturn.inClosure? closures tree path).isSome = true ↔
      tree.ownerKind? path = some .functionSignature ∨
        closures = true ∧ tree.ownerKind? path = some .closureSignature := by
  unfold VoidReturn.inClosure?
  split
  · next howner => simp [howner]
  · next howner => cases closures <;> simp [howner]
  · next hfunction hclosure =>
    simp only [Option.isSome_none, Bool.false_eq_true, false_iff, not_or, not_and]
    exact ⟨hfunction, fun _ => hclosure⟩

lemma isVoidClause_iff_spellsVoid {text : String} {path : Path} {children : List Tree}
    (h : (parse text).sub? path = some (.node .returnClause children)) :
    isVoidClause (.node .returnClause children) = true ↔
      ∃ arrow tokens, significant (Tree.leavesOf children) = arrow :: tokens ∧ arrow.kind = .arrow ∧
        SpellsVoid tokens (significant ((parse text).behind path)) := by
  have hspelled := (Tree.every_node.1 ((Grammar.every_clauseSpelled (tokensOf text)).sub? h)).1 rfl
  rw [List.append_nil, Tree.leavesOf_bareOf, ← Tree.bare_node, isVoidClause_eq (Tree.trims_bare _).echo] at hspelled
  exact hspelled

/-- The rule against return clauses that say nothing objects exactly to the clauses of functions, and perhaps of
closures, whose significant tokens are an arrow and a spelling of the empty type. -/
theorem mem_sitePaths_voidReturn (text : String) (closures : Bool) (path : Path) :
    path ∈ (voidReturn closures).sitePaths (parse text) [] ↔
      ∃ children, (parse text).sub? path = some (.node .returnClause children) ∧
        ((parse text).ownerKind? path = some .functionSignature ∨
          closures = true ∧ (parse text).ownerKind? path = some .closureSignature) ∧
        ∃ arrow tokens, significant (Tree.leavesOf children) = arrow :: tokens ∧ arrow.kind = .arrow ∧
          SpellsVoid tokens (significant ((parse text).behind path)) := by
  rw [Rule.mem_sitePaths_nil (.inr ⟨closures, rfl⟩) (shaped_parse text), hasSite_voidReturn (shaped_parse text)]
  constructor
  · rintro ⟨part, hpart, hvoid, howner⟩
    obtain ⟨children, rfl⟩ := exists_of_isVoidClause hvoid
    exact ⟨children, hpart, isSome_inClosure?.1 howner, (isVoidClause_iff_spellsVoid hpart).1 hvoid⟩
  · rintro ⟨children, hpart, howner, hspelled⟩
    exact ⟨_, hpart, (isVoidClause_iff_spellsVoid hpart).2 hspelled, isSome_inClosure?.2 howner⟩

/-- A tuple of nothing but a comma counts as empty. -/
theorem mem_sitePaths_voidReturn_comma :
    let tree := parse "func f() -> (,) {}\n"
    [0, 3, 2] ∈ (voidReturn false).sitePaths tree [] ∧
      (tree.sub? [0, 3, 2]).map (fun clause => (significant clause.leaves).map Token.kind) =
        some [.arrow, .lparen, .comma, .rparen] := by
  simp only [Rule.mem_sitePaths]
  decide +kernel

end Rules

end SwiftTidy

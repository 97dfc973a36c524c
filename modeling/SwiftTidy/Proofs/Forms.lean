import SwiftTidy.Proofs.BareSites
import SwiftTidy.Proofs.Beats

/-!
# What every node looks like

A node is built by one of few phrases, and these say what its children may be. To state such a thing of all nodes of a
tree at once, a property is asked of the kind of a node, its children without trivia and the significant tokens
behind it (`Tree.Every`). It carries over from a stage of reading to the next if it holds of the nodes that are built on
the way (`Grammar.LeadsIn.every`). Most phrases build no node that a property is interested in, which can be told by
looking at them.
-/

namespace SwiftTidy

open Token (significant)

namespace Tree

/-! ## Properties of all nodes -/

mutual

/-- A property holds of all nodes of a tree: of their kinds, their children and the tokens behind them, where the given
tokens come behind the tree. -/
def Every (P : Kind → List Tree → List Token → Prop) : Tree → List Token → Prop
  | .leaf _, _ => True
  | .node kind children, behind => P kind children behind ∧ EveryOf P children behind

/-- A property holds of all nodes of a row of trees. -/
def EveryOf (P : Kind → List Tree → List Token → Prop) : List Tree → List Token → Prop
  | [], _ => True
  | tree :: rest, behind => tree.Every P (leavesOf rest ++ behind) ∧ EveryOf P rest behind

end

variable {P : Kind → List Tree → List Token → Prop} {r : List Token}

@[simp] lemma every_leaf (token : Token) : (leaf token).Every P r := by rw [Every]; trivial

@[simp] lemma every_node {kind : Kind} {children : List Tree} :
    (node kind children).Every P r ↔ P kind children r ∧ EveryOf P children r := by rw [Every]

@[simp] lemma everyOf_nil : EveryOf P [] r := by rw [EveryOf]; trivial

@[simp] lemma everyOf_cons {tree : Tree} {rest : List Tree} :
    EveryOf P (tree :: rest) r ↔ tree.Every P (leavesOf rest ++ r) ∧ EveryOf P rest r := by rw [EveryOf]

@[simp] lemma everyOf_append {front back : List Tree} :
    EveryOf P (front ++ back) r ↔ EveryOf P front (leavesOf back ++ r) ∧ EveryOf P back r := by
  induction front with
  | nil => simp
  | cons tree rest ih => simp [ih, and_assoc]

@[simp] lemma everyOf_map_leaf (tokens : List Token) : EveryOf P (tokens.map leaf) r := by
  induction tokens with
  | nil => simp
  | cons token rest ih => simp [ih]

/-- The tokens behind the part at a path. -/
def behind : Tree → Path → List Token
  | _, [] => []
  | .leaf _, _ :: _ => []
  | .node _ children, i :: path =>
    (match children[i]? with
      | some child => child.behind path
      | none => []) ++ leavesOf (children.drop (i + 1))

lemma EveryOf.getElem? {trees : List Tree} (h : EveryOf P trees r) {i : Nat} {tree : Tree}
    (hi : trees[i]? = some tree) : tree.Every P (leavesOf (trees.drop (i + 1)) ++ r) := by
  induction trees generalizing i with
  | nil => simp at hi
  | cons first rest ih =>
    rw [everyOf_cons] at h
    cases i with
    | zero =>
      obtain rfl : first = tree := by simpa using hi
      exact h.1
    | succ i => exact ih h.2 (by simpa using hi)

lemma Every.sub? {tree part : Tree} (h : tree.Every P r) {path : Path} (hpath : tree.sub? path = some part) :
    part.Every P (tree.behind path ++ r) := by
  induction path generalizing tree r with
  | nil =>
    obtain rfl : tree = part := by simpa using hpath
    simpa [Tree.behind] using h
  | cons i path ih =>
    cases tree with
    | leaf token => simp [Tree.sub?] at hpath
    | node owner row =>
      rw [sub?_node_cons, Option.bind_eq_some_iff] at hpath
      obtain ⟨child, hchild, hpath⟩ := hpath
      have hevery := ih ((every_node.1 h).2.getElem? hchild) hpath
      simpa [Tree.behind, hchild] using hevery

mutual

lemma every_of_bare {tree : Tree} {r : List Token} (h : tree.bare.Every P (significant r)) :
    tree.Every (fun kind children behind => P kind (bareOf children) (significant behind)) r := by
  cases tree with
  | leaf token => simp
  | node kind children =>
    rw [bare_node, every_node] at h
    exact every_node.2 ⟨h.1, everyOf_of_bareOf h.2⟩

lemma everyOf_of_bareOf {trees : List Tree} {r : List Token} (h : EveryOf P (bareOf trees) (significant r)) :
    EveryOf (fun kind children behind => P kind (bareOf children) (significant behind)) trees r := by
  cases trees with
  | nil => simp
  | cons tree rest =>
    rw [everyOf_cons]
    cases tree with
    | leaf token =>
      refine ⟨every_leaf token, everyOf_of_bareOf ?_⟩
      rw [bareOf_leaf_cons] at h
      split at h
      · exact h
      · exact (everyOf_cons.1 h).2
    | node kind children =>
      rw [bareOf_node_cons, ← bare_node, everyOf_cons, leavesOf_bareOf, significant, significant,
        ← List.filter_append] at h
      exact ⟨every_of_bare h.1, everyOf_of_bareOf h.2⟩

end

end Tree

/-! ## Children of parts -/

namespace Part

lemma map_tree_children (part : Part) : part.children.map Part.tree = part.tree.children := by
  refine List.ext_getElem (by simp [children]) fun i _ _ => ?_
  simp [children]

lemma map_filter_nodes (p : Tree → Bool) (part : Part) :
    (part.nodes.filter fun child => p child.tree).map Part.tree =
      part.tree.children.filter fun child => child.isNode && p child := by
  rw [nodes, List.filter_filter, ← map_tree_children, List.filter_map]
  simp [Function.comp_def, Bool.and_comm]

end Part

namespace Grammar

variable {n : Nat} {s t u : Stage}

/-! ## Reading step by step -/

@[simp] lemma Stage.built_opened (s : Stage) : s.opened.built = [] := rfl

@[simp] lemma Stage.tokens_opened (s : Stage) : s.opened.row.tokens = s.row.tokens := rfl

@[simp] lemma Stage.opened_opened (s : Stage) : s.opened.opened = s.opened := rfl

/-- From one stage to another some tokens have moved into the trees. -/
def Stage.Onward (s t : Stage) : Prop :=
  ∃ taken, Tree.leavesOf t.built = Tree.leavesOf s.built ++ taken ∧ s.row.tokens = taken ++ t.row.tokens

lemma Reads.onward {σ : Type} {g : σ → Phrase σ} {phrase : Phrase σ} (h : Reads g n phrase s t) : s.Onward t := by
  have hleaves := h.leaves_eq
  rcases List.append_eq_append_iff.1 hleaves with ⟨taken, hbuilt, htokens⟩ | ⟨taken, hbuilt, htokens⟩
  · -- reading does not go backwards
    have hle := h.left_le
    have hnil : taken = [] := by
      simp only [Stage.left, htokens, List.length_append] at hle
      exact List.length_eq_zero_iff.1 (by omega)
    exact ⟨[], by simpa [hnil] using hbuilt.symm, by simpa [hnil] using htokens.symm⟩
  · exact ⟨taken, hbuilt, htokens⟩

namespace Stage.Onward

lemma take (s : Stage) : s.Onward s.take :=
  ⟨s.row.tokens.take 1, by rw [Stage.take, Tree.leavesOf_append, Tree.leavesOf_map_leaf], by
    rw [Stage.take, Row.tokens_rest, ← List.drop_one, List.take_append_drop]⟩

lemma refl (s : Stage) : s.Onward s := ⟨[], by simp, by simp⟩

variable {m : Stage} {rest : List Token} {token : Token}

lemma trans (h : s.Onward m) (h' : m.Onward t) : s.Onward t := by
  obtain ⟨taken, hbuilt, htokens⟩ := h
  obtain ⟨more, hbuilt', htokens'⟩ := h'
  exact ⟨taken ++ more, by rw [hbuilt', hbuilt, List.append_assoc], by rw [htokens, htokens', List.append_assoc]⟩

lemma mem (h : s.Onward t) (htoken : token ∈ Tree.leavesOf s.built) : token ∈ Tree.leavesOf t.built := by
  obtain ⟨taken, hbuilt, -⟩ := h
  simp [hbuilt, htoken]

lemma head_mem (h : s.take.Onward t) (hs : s.row.tokens = token :: rest) :
    token ∈ Tree.leavesOf t.built := h.mem (by simp [Stage.take, hs])

lemma head_mem_of_take (h : s.Onward m) (h' : m.take.Onward t) (hs : s.row.tokens = token :: rest) :
    token ∈ Tree.leavesOf t.built := by
  obtain ⟨taken, hbuilt, htokens⟩ := h
  cases taken with
  | nil => exact h'.head_mem (htokens.symm.trans hs)
  | cons first others =>
    obtain ⟨rfl, -⟩ := List.cons.inj (hs.symm.trans htokens)
    exact ((Onward.take m).trans h').mem (by simp [hbuilt])

end Stage.Onward

section LeadsIn

variable {phrase first second yes no body : Phrase Symbol} {X : Symbol} {kind : Kind} {test : Test}

@[simp] lemma leadsIn_skip : LeadsIn n .skip s t ↔ t = s := by
  constructor
  · intro h
    cases h
    rfl
  · rintro rfl
    exact .skip n t

@[simp] lemma leadsIn_take : LeadsIn n .take s t ↔ t = s.take := by
  constructor
  · intro h
    cases h
    rfl
  · rintro rfl
    exact .take n s

@[simp] lemma not_leads_call : ¬ LeadsIn 0 (.call X) s t := by
  intro h
  cases h

@[simp] lemma leadsIn_call : LeadsIn (n + 1) (.call X) s t ↔ LeadsIn n (swift X) s t := by
  constructor
  · intro h
    cases h with
    | call h => exact h
  · exact .call

@[simp] lemma leadsIn_seq : LeadsIn n (.seq first second) s t ↔ ∃ m, LeadsIn n first s m ∧ LeadsIn n second m t := by
  constructor
  · intro h
    cases h with
    | seq h₁ h₂ => exact ⟨_, h₁, h₂⟩
  · rintro ⟨m, h₁, h₂⟩
    exact .seq h₁ h₂

@[simp] lemma leadsIn_choose : LeadsIn n (.choose test yes no) s t ↔
    test.reply s.row.lead s.row.tokens = true ∧ LeadsIn n yes s t ∨
      test.reply s.row.lead s.row.tokens = false ∧ LeadsIn n no s t := by
  constructor
  · intro h
    cases h with
    | yes htest h => exact .inl ⟨htest, h⟩
    | no htest h => exact .inr ⟨htest, h⟩
  · rintro (⟨htest, h⟩ | ⟨htest, h⟩)
    · exact .yes htest h
    · exact .no htest h

@[simp] lemma leadsIn_node : LeadsIn n (.node kind body) s t ↔
    ∃ u, LeadsIn n body s.opened u ∧ t = ⟨s.built ++ [.node kind u.built], u.row⟩ := by
  constructor
  · intro h
    cases h with
    | node h => exact ⟨_, h, rfl⟩
  · rintro ⟨u, h, rfl⟩
    exact .node h

@[simp] lemma leadsIn_mark : LeadsIn n (.mark body) s t ↔
    ∃ u, LeadsIn n body s.opened u ∧ t = ⟨s.built ++ u.built, u.row⟩ := by
  constructor
  · intro h
    cases h with
    | mark h => exact ⟨_, h, rfl⟩
  · rintro ⟨u, h, rfl⟩
    exact .mark h

@[simp] lemma leadsIn_wrap : LeadsIn n (.wrap kind body) s t ↔
    ∃ u, LeadsIn n body s u ∧ t = ⟨[.node kind u.built], u.row⟩ := by
  constructor
  · intro h
    cases h with
    | wrap h => exact ⟨_, h, rfl⟩
  · rintro ⟨u, h, rfl⟩
    exact .wrap h

@[simp] lemma leadsIn_opt : LeadsIn n (.opt test body) s t ↔
    test.reply s.row.lead s.row.tokens = true ∧ LeadsIn n body s t ∨
      test.reply s.row.lead s.row.tokens = false ∧ t = s := by
  simp [Phrase.opt]

@[simp] lemma leadsIn_inOrder_nil : LeadsIn n (.inOrder []) s t ↔ t = s := by simp [Phrase.inOrder]

@[simp] lemma leadsIn_inOrder_cons {rest : List (Phrase Symbol)} : LeadsIn n (.inOrder (phrase :: rest)) s t ↔
    ∃ m, LeadsIn n phrase s m ∧ LeadsIn n (.inOrder rest) m t := by
  simp [Phrase.inOrder]

@[simp] lemma leadsIn_firstOf_nil : LeadsIn n (.firstOf [] body) s t ↔ LeadsIn n body s t := by simp [Phrase.firstOf]

@[simp] lemma leadsIn_firstOf_cons {cases : List (Test × Phrase Symbol)} :
    LeadsIn n (.firstOf ((test, yes) :: cases) no) s t ↔
    test.reply s.row.lead s.row.tokens = true ∧ LeadsIn n yes s t ∨
      test.reply s.row.lead s.row.tokens = false ∧ LeadsIn n (.firstOf cases no) s t := by
  simp [Phrase.firstOf]

end LeadsIn

/-! ## What comes next -/

/-- An arrow comes, or an effect with an arrow behind it. -/
def Test.arrowAhead : Test :=
  .either (.next .arrow) (.both (.nextAny [.asyncKw, .throwsKw]) (.either (.second .arrow) (.sees 2 (· == .arrow))))

section Next

variable {kind : Kind} {lead : Pause} {tokens : List Token}

lemma exists_of_next (h : (Test.next kind).reply lead tokens = true) :
    ∃ token rest, tokens = token :: rest ∧ token.kind = kind := by
  cases tokens with
  | nil => simp [Test.next, Test.reply] at h
  | cons token rest => exact ⟨token, rest, rfl, by simpa [Test.next, Test.reply] using h⟩

lemma exists_of_nextAny {kinds : List Kind} (h : (Test.nextAny kinds).reply lead tokens = true) :
    ∃ token rest, tokens = token :: rest ∧ token.kind ∈ kinds := by
  cases tokens with
  | nil => simp [Test.nextAny, Test.reply] at h
  | cons token rest => exact ⟨token, rest, rfl, by simpa [Test.nextAny, Test.reply] using h⟩

lemma take_of_cons {token : Token} {rest : List Token} (h : s.row.tokens = token :: rest) :
    s.take.built = s.built ++ [.leaf token] ∧ s.take.row.tokens = rest := by
  simp [Stage.take, h]

lemma leadsIn_accept (h : LeadsIn n (accept kind) s t) :
    (∃ token, token ∈ s.row.tokens.head? ∧ token.kind = kind ∧ t.built = s.built ++ [.leaf token]) ∨
      (∀ token ∈ s.row.tokens.head?, token.kind ≠ kind) ∧ t = s := by
  simp only [accept, leadsIn_opt, leadsIn_take] at h
  obtain ⟨hnext, rfl⟩ | ⟨hnext, rfl⟩ := h
  · obtain ⟨token, rest, htokens, hkind⟩ := exists_of_next hnext
    exact .inl ⟨token, by simp [htokens], hkind, (take_of_cons htokens).1⟩
  · refine .inr ⟨fun token htoken hkind => ?_, rfl⟩
    obtain ⟨rest, htokens⟩ := List.head?_eq_some_iff.1 (Option.mem_def.1 htoken)
    simp [Test.next, Test.reply, htokens, hkind] at hnext

end Next

/-! ## Properties of what is read -/

section Every

variable {P : Kind → List Tree → List Token → Prop}

/-- A property holds of all nodes that are built. -/
def Stage.Every (P : Kind → List Tree → List Token → Prop) (s : Stage) : Prop := Tree.EveryOf P s.built s.row.tokens

namespace Stage.Every

lemma opened (s : Stage) : s.opened.Every P := Tree.everyOf_nil

lemma take (h : s.Every P) : s.take.Every P := by
  refine Tree.everyOf_append.2 ⟨?_, Tree.everyOf_map_leaf _⟩
  rw [Tree.leavesOf_map_leaf, Stage.take, Row.tokens_rest, ← List.drop_one, List.take_append_drop]
  exact h

lemma mark (h : s.Every P) (honward : s.opened.Onward t) (ht : t.Every P) :
    Stage.Every P ⟨s.built ++ t.built, t.row⟩ := by
  obtain ⟨taken, hbuilt, htokens⟩ := honward
  refine Tree.everyOf_append.2 ⟨?_, ht⟩
  rw [hbuilt, Stage.built_opened, Tree.leavesOf_nil, List.nil_append, ← htokens]
  exact h

lemma node {kind : Kind} (h : s.Every P) (honward : s.opened.Onward t) (ht : t.Every P)
    (hP : P kind t.built t.row.tokens) : Stage.Every P ⟨s.built ++ [.node kind t.built], t.row⟩ := by
  obtain ⟨taken, hbuilt, htokens⟩ := honward
  refine Tree.everyOf_append.2 ⟨?_, ?_⟩
  · rw [Tree.leavesOf_cons, Tree.leavesOf_nil, List.append_nil, Tree.leaves_node, hbuilt, Stage.built_opened,
      Tree.leavesOf_nil, List.nil_append, ← htokens]
    exact h
  · simpa using ⟨hP, ht⟩

lemma wrap {kind : Kind} (ht : t.Every P) (hP : P kind t.built t.row.tokens) :
    Stage.Every P ⟨[.node kind t.built], t.row⟩ := by
  refine Tree.everyOf_cons.2 ⟨?_, Tree.everyOf_nil⟩
  simpa using ⟨hP, ht⟩

end Stage.Every

/-- A phrase builds no nodes of the given kinds, and calls none of the given symbols. -/
def Phrase.plain {σ : Type} (kinds : Kind → Bool) (symbols : σ → Bool) : Phrase σ → Bool
  | .skip | .take => true
  | .call X => !symbols X
  | .seq first second => first.plain kinds symbols && second.plain kinds symbols
  | .choose _ yes no => yes.plain kinds symbols && no.plain kinds symbols
  | .node kind body | .wrap kind body => !kinds kind && body.plain kinds symbols
  | .mark body => body.plain kinds symbols

/-- A property of nodes of certain kinds is not lost in a plain phrase, if it is not lost in the symbols that it
calls. -/
lemma LeadsIn.every_of_plain (kinds : Kind → Bool) (symbols : Symbol → Bool)
    (hP : ∀ kind children behind, kinds kind = false → P kind children behind) {phrase : Phrase Symbol}
    (hplain : phrase.plain kinds symbols = true) (h : LeadsIn n phrase s t)
    (hcalls : ∀ X s t, symbols X = false → LeadsIn n (.call X) s t → s.Every P → t.Every P) (hs : s.Every P) :
    t.Every P := by
  induction phrase generalizing s t with
  | skip =>
    obtain rfl := leadsIn_skip.1 h
    exact hs
  | take =>
    obtain rfl := leadsIn_take.1 h
    exact hs.take
  | call X => exact hcalls X s t (by simpa [Phrase.plain] using hplain) h hs
  | seq first second ih₁ ih₂ =>
    simp only [Phrase.plain, Bool.and_eq_true] at hplain
    obtain ⟨m, h₁, h₂⟩ := leadsIn_seq.1 h
    exact ih₂ hplain.2 h₂ (ih₁ hplain.1 h₁ hs)
  | choose test yes no ih₁ ih₂ =>
    simp only [Phrase.plain, Bool.and_eq_true] at hplain
    obtain ⟨-, h⟩ | ⟨-, h⟩ := leadsIn_choose.1 h
    · exact ih₁ hplain.1 h hs
    · exact ih₂ hplain.2 h hs
  | node kind body ih =>
    simp only [Phrase.plain, Bool.and_eq_true, Bool.not_eq_true'] at hplain
    obtain ⟨u, hbody, rfl⟩ := leadsIn_node.1 h
    exact hs.node hbody.onward (ih hplain.2 hbody (.opened s)) (hP _ _ _ hplain.1)
  | mark body ih =>
    obtain ⟨u, hbody, rfl⟩ := leadsIn_mark.1 h
    exact hs.mark hbody.onward (ih hplain hbody (.opened s))
  | wrap kind body ih =>
    simp only [Phrase.plain, Bool.and_eq_true, Bool.not_eq_true'] at hplain
    obtain ⟨u, hbody, rfl⟩ := leadsIn_wrap.1 h
    exact (ih hplain.2 hbody hs).wrap (hP _ _ _ hplain.1)

/-- A property holds of all nodes that a symbol leads to, if it holds of nodes of all but certain kinds, and the phrases
that build these keep it. A phrase that calls one of certain symbols has to show that it may. -/
theorem LeadsIn.every (kinds : Kind → Bool) (symbols : Symbol → Bool) (may : Symbol → Stage → Prop)
    (hP : ∀ kind children behind, kinds kind = false → P kind children behind)
    (hmay : ∀ X s, symbols X = false → may X s)
    (hphrase : ∀ n X s t, (swift X).plain kinds symbols = false →
      (∀ Y s t, LeadsIn n (.call Y) s t → may Y s → s.Every P → t.Every P) →
        LeadsIn n (swift X) s t → may X s → s.Every P → t.Every P)
    {X : Symbol} (h : LeadsIn n (.call X) s t) (hs : may X s) (hevery : s.Every P) : t.Every P := by
  induction n generalizing X s t with
  | zero => simp at h
  | succ n ih =>
    rw [leadsIn_call] at h
    cases hplain : (swift X).plain kinds symbols with
    | false => exact hphrase n X s t hplain (fun Y s t h hs hevery => ih h hs hevery) h hs hevery
    | true => exact h.every_of_plain kinds symbols hP hplain (fun Y s t hY h => ih h (hmay Y s hY)) hevery

lemma every_bare_parseTokens (tokens : List Token) (hfile : ∀ children, P .sourceFile children [])
    (hleads : ∀ n s t, LeadsIn n (.call (.statements .fileEnd)) s t → s.Every P → t.Every P) :
    (parseTokens tokens).bare.Every P [] := by
  obtain ⟨n, t, h, hend, hbare⟩ := exists_reads tokens
  have hevery := hleads n _ t h Tree.everyOf_nil
  rw [Stage.Every, hend] at hevery
  rw [hbare]
  exact Tree.every_node.2 ⟨hfile _, hevery⟩

end Every

end Grammar

end SwiftTidy

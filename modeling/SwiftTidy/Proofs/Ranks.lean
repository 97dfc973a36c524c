import SwiftTidy.Proofs.Forms
import SwiftTidy.Proofs.Origins

/-!
# What nodes may hold

The kinds of nodes have ranks. In a type there are no expressions, and in an expression there are no signatures, except
within a closure. Nodes of other kinds may hold anything but a signature, which stands in a function or in a closure.
Of a grammar it can be checked that it keeps to this (`Grammar.bounded_of_ranks`).

Where there is a return clause, the parameters before it are closed. So is whatever else comes right before it, and
there is no other clause in the signature (`Tree.Fits.headed`).
-/

namespace SwiftTidy

namespace Kind

/-- What nodes of a kind may hold: types, expressions as well, or anything. Signatures have a rank of their own. -/
def rank : Kind → Nat
  | .modifiers | .attributeNode | .genericParams | .closureParams | .returnClause | .genericArgs | .tupleTypeElement
  | .simpleType | .memberType | .tupleType | .optionalType | .implicitlyUnwrappedType | .functionType | .arrayType
  | .dictionaryType | .attributedType | .error => 0
  | .argumentList | .argument | .identExpr | .literalExpr | .tupleExpr | .arrayExpr | .memberExpr | .callExpr
  | .closureExpr | .prefixExpr | .postfixExpr | .binaryExpr | .ternaryExpr | .tryExpr => 1
  | .functionSignature | .closureSignature => 3
  | _ => 2

/-- The kinds of nodes that hold a signature. -/
def holdsSignature : Kind → Bool
  | .functionDecl | .initializerDecl | .closureExpr => true
  | _ => false

lemma rank_of_isExpression {kind : Kind} (h : kind.isExpression = true) : kind.rank = 1 := by
  cases kind <;> first | rfl | simp [isExpression] at h

end Kind

namespace Tree

/-! ## Hollow trees -/

mutual

/-- A tree with its expressions emptied. -/
def hollow : Tree → Tree
  | .leaf token => .leaf token
  | .node kind children => if kind.isExpression then .node .identExpr [] else .node kind (hollowOf children)

/-- Several trees in a row with their expressions emptied. -/
def hollowOf : List Tree → List Tree
  | [] => []
  | tree :: rest => tree.hollow :: hollowOf rest

end

@[simp] lemma hollow_leaf (token : Token) : (Tree.leaf token).hollow = .leaf token := by rw [hollow]

variable {kind : Kind}

lemma hollow_node (h : kind.isExpression = false) (children : List Tree) :
    (Tree.node kind children).hollow = .node kind (hollowOf children) := by
  rw [hollow, h]
  rfl

lemma hollow_expression (h : kind.isExpression = true) (children : List Tree) :
    (Tree.node kind children).hollow = .node .identExpr [] := by
  rw [hollow, h]
  rfl

lemma hollowOf_eq_map (row : List Tree) : hollowOf row = row.map hollow := by
  induction row with
  | nil => rw [hollowOf, List.map_nil]
  | cons tree rest ih => rw [hollowOf, ih, List.map_cons]

@[simp] lemma isNode_hollow (tree : Tree) : tree.hollow.isNode = tree.isNode := by
  cases tree with
  | leaf token => simp
  | node kind children =>
    rw [hollow]
    split <;> rfl

lemma rank_hollow (tree : Tree) (h : tree.isNode = true) : tree.hollow.kind.rank = tree.kind.rank := by
  cases tree with
  | leaf token => simp [isNode] at h
  | node kind children =>
    rw [hollow]
    split
    next hexpression => exact (Kind.rank_of_isExpression hexpression).symm
    next => rfl

lemma kind_of_hollow {tree : Tree} (h : tree.hollow.kind = kind) (hkind : kind ≠ .identExpr) : tree.kind = kind := by
  cases tree with
  | leaf token => simpa using h
  | node held children =>
    rw [hollow] at h
    split at h
    next => exact absurd h.symm hkind
    next => exact h

/-- Whether a tree ends in a token, or holds no expressions and begins with a token. -/
def isSolid : Tree → Bool
  | .leaf _ => true
  | .node kind children =>
    kind.rank == 0 && children.head?.any (!·.isNode) || children.getLast?.any (!·.isNode)

/-- A node may have these children, whose expressions are emptied. -/
structure Fits (kind : Kind) (children : List Tree) : Prop where
  rank : kind.holdsSignature = false → ∀ child ∈ children, child.isNode = true → child.kind.rank ≤ min kind.rank 2
  opening : kind = .closureExpr → ∀ child ∈ children.head?, child.isNode = false
  headed : ∀ front signature back, children = front ++ signature :: back → signature.isNode = true →
    signature.kind.rank = 3 → ∀ before clause after, signature.children = before ++ clause :: after →
      clause.isNode = true → clause.kind = .returnClause →
        (∃ last, before.getLast?.or front.getLast? = some last ∧ last.isSolid = true) ∧
          ∀ tree ∈ before, tree.isNode = true → tree.kind ≠ .returnClause

/-- All nodes of a tree without trivia have children that fit. -/
def Fitted (tree : Tree) : Prop :=
  ∀ p kind children, tree.sub? p = some (.node kind children) → Fits kind (hollowOf children)

lemma fitted_leaf (token : Token) : (Tree.leaf token).Fitted := by
  intro p kind children h
  cases p <;> simp [sub?] at h

lemma fitted_node {children : List Tree} (hfits : Fits kind (hollowOf children))
    (hchildren : ∀ child ∈ children, child.Fitted) : (Tree.node kind children).Fitted := by
  intro p k cs h
  obtain heq | ⟨child, hchild, q, hsub⟩ := sub?_node_cases h
  · obtain ⟨rfl, rfl⟩ := Tree.node.inj heq
    exact hfits
  · exact hchildren child hchild q k cs hsub

/-- All trees of a row fit, and their ranks are bounded. -/
def Bounded (n : Nat) (row : List Tree) : Prop :=
  ∀ tree ∈ row, tree.Fitted ∧ (tree.isNode = true → tree.kind.rank ≤ n)

namespace Bounded

variable {n m : Nat} {row more : List Tree}

lemma nil (n : Nat) : Bounded n [] := by simp [Bounded]

lemma mono (h : Bounded n row) (hle : n ≤ m) : Bounded m row := fun tree htree =>
  ⟨(h tree htree).1, fun hnode => ((h tree htree).2 hnode).trans hle⟩

lemma append (h : Bounded n row) (hmore : Bounded n more) : Bounded n (row ++ more) := fun tree htree =>
  (List.mem_append.1 htree).elim (h tree) (hmore tree)

lemma leaves (n : Nat) (tokens : List Token) : Bounded n (tokens.map Tree.leaf) := by
  intro tree htree
  obtain ⟨token, -, rfl⟩ := List.mem_map.1 htree
  exact ⟨fitted_leaf token, by simp [isNode]⟩

lemma rank_of_mem_hollowOf (h : Bounded n row) {child : Tree} (hchild : child ∈ hollowOf row)
    (hnode : child.isNode = true) : child.kind.rank ≤ n := by
  rw [hollowOf_eq_map] at hchild
  obtain ⟨tree, htree, rfl⟩ := List.mem_map.1 hchild
  rw [isNode_hollow] at hnode
  rw [rank_hollow tree hnode]
  exact (h tree htree).2 hnode

lemma not_mem_hollowOf (h : Bounded n row) (hn : n ≤ 2) {signature : Tree} (hnode : signature.isNode = true)
    (hrank : signature.kind.rank = 3) : signature ∉ hollowOf row := by
  intro hmem
  have hle := h.rank_of_mem_hollowOf hmem hnode
  omega

lemma fits (h : Bounded n row) {kind : Kind} (hn : n ≤ min kind.rank 2) (hkind : kind.holdsSignature = false) :
    Fits kind (hollowOf row) where
  rank _ child hchild hnode := (h.rank_of_mem_hollowOf hchild hnode).trans hn
  opening hclosure := by simp [hclosure, Kind.holdsSignature] at hkind
  headed front signature back hrow hnode hrank := by
    exact absurd (by simp [hrow]) (h.not_mem_hollowOf (hn.trans (min_le_right _ _)) hnode hrank)

lemma node (h : Bounded n row) {kind : Kind} (hn : n ≤ min kind.rank 2) (hkind : kind.holdsSignature = false)
    (hm : kind.rank ≤ m) : Bounded m [.node kind row] := by
  intro tree htree
  obtain rfl := List.mem_singleton.1 htree
  exact ⟨fitted_node (h.fits hn hkind) fun child hchild => (h child hchild).1, fun _ => hm⟩

end Bounded

end Tree

namespace Grammar

open Phrase Test SwiftTidy.Tree Rules

/-! ## Ranks of symbols -/

namespace Symbol

/-- A bound on what a symbol adds to the trees since the mark. -/
def adds : Symbol → Nat
  | .error | .group | .inGroup _ _ _ | .conditionPattern | .forPattern | .switchLabel | .modifiers | .modifierList
  | .attributeNode | .attributeNodes | .operatorName | .dottedName | .inheritedTypes | .importPath | .genericParams
  | .genericParamList | .effects | .returnClause | .whereClause | .whereWords | .type | .typeSuffixes | .simpleType
  | .genericArgs | .genericArgList | .tupleType | .tupleElements | .tupleElement | .collectionType | .operatorRest
  | .closureNames => 0
  | .conditions | .enumElements | .expr _ | .exprSuffixes _ | .unary _ | .postfixed _ | .suffixes _ | .primary
  | .argumentList _ | .arguments _ | .argumentItems _ | .arrayExpr | .arrayItems | .closure => 1
  | .signature | .closureSignature => 3
  | _ => 2

/-- A bound on the trees since the mark where a symbol is called. -/
def within : Symbol → Nat
  | .typeSuffixes => 0
  | .exprSuffixes _ | .suffixes _ => 1
  | .signature | .closureSignature => 3
  | _ => 2

/-- Symbols that build the nodes which hold signatures. -/
def isHolder : Symbol → Bool
  | .function | .initializer | .closure => true
  | _ => false

end Symbol

/-- A bound on the trees since the mark after a phrase, if `n` bounds them before and all nodes hold what they may. -/
def Phrase.ranks : Phrase Symbol → Nat → Option Nat
  | .skip, n | .take, n => some n
  | .call X, n => if n ≤ X.within then some (max n X.adds) else none
  | .seq first second, n => (first.ranks n).bind second.ranks
  | .choose _ yes no, n => (yes.ranks n).bind fun a => (no.ranks n).map (max a)
  | .node kind body, n => (body.ranks 0).bind fun m =>
      if m ≤ min kind.rank 2 ∧ kind.holdsSignature = false then some (max n kind.rank) else none
  | .mark body, n => (body.ranks 0).map (max n)
  | .wrap kind body, n => (body.ranks n).bind fun m =>
      if m ≤ min kind.rank 2 ∧ kind.holdsSignature = false then some kind.rank else none

/-- What a symbol adds keeps to its rank. -/
def KeepsRanks (n : Nat) : Prop :=
  ∀ X s t, LeadsIn n (.call X) s t → ∀ k ≤ X.within, Bounded k s.built → Bounded (max k X.adds) t.built

variable {n k left : Nat} {s t m : Stage} {X : Symbol} {held kind : Kind} {phrase : Phrase Symbol}
  {row front children back : List Tree}

/-- A phrase that passes the check builds nodes that hold what they may. -/
lemma bounded_of_ranks (hcall : KeepsRanks n) (h : LeadsIn n phrase s t) {m : Nat}
    (hranks : phrase.ranks k = some m) (hs : Bounded k s.built) : Bounded m t.built := by
  induction phrase generalizing s t k m with
  | skip =>
    cases h
    simpa using (Option.some.inj hranks) ▸ hs
  | take =>
    cases h
    obtain rfl := Option.some.inj hranks
    exact hs.append (Bounded.leaves _ _)
  | call X =>
    rw [ranks, Option.ite_none_right_eq_some] at hranks
    obtain ⟨hle, hm⟩ := hranks
    obtain rfl := Option.some.inj hm
    exact hcall X s t h k hle hs
  | seq first second ih₁ ih₂ =>
    cases h with
    | seq h₁ h₂ =>
      obtain ⟨mid, hfirst, hsecond⟩ := Option.bind_eq_some_iff.1 hranks
      exact ih₂ h₂ hsecond (ih₁ h₁ hfirst hs)
  | choose test yes no ih₁ ih₂ =>
    obtain ⟨x, hyes, hrest⟩ := Option.bind_eq_some_iff.1 hranks
    obtain ⟨y, hno, rfl⟩ := Option.map_eq_some_iff.1 hrest
    cases h with
    | yes _ h => exact (ih₁ h hyes hs).mono (le_max_left x y)
    | no _ h => exact (ih₂ h hno hs).mono (le_max_right x y)
  | node kind body ih =>
    cases h with
    | node h =>
      obtain ⟨inner, hbody, hrest⟩ := Option.bind_eq_some_iff.1 hranks
      rw [Option.ite_none_right_eq_some] at hrest
      obtain ⟨⟨hinner, hkind⟩, hm⟩ := hrest
      obtain rfl := Option.some.inj hm
      exact (hs.mono (le_max_left _ _)).append ((ih h hbody (Bounded.nil 0)).node hinner hkind (le_max_right _ _))
  | mark body ih =>
    cases h with
    | mark h =>
      obtain ⟨inner, hbody, rfl⟩ := Option.map_eq_some_iff.1 hranks
      exact (hs.mono (le_max_left _ _)).append ((ih h hbody (Bounded.nil 0)).mono (le_max_right _ _))
  | wrap kind body ih =>
    cases h with
    | wrap h =>
      obtain ⟨inner, hbody, hrest⟩ := Option.bind_eq_some_iff.1 hranks
      rw [Option.ite_none_right_eq_some] at hrest
      obtain ⟨⟨hinner, hkind⟩, hm⟩ := hrest
      obtain rfl := Option.some.inj hm
      exact (ih h hbody hs).node hinner hkind le_rfl

lemma ranks_swift (h : X.isHolder = false) (hk : k ≤ X.within) :
    ∃ m, (swift X).ranks k = some m ∧ m ≤ max k X.adds := by
  have hcheck : ((List.range (X.within + 1)).all fun k => ((swift X).ranks k).any (· ≤ max k X.adds)) = true := by
    cases X with
    | inGroup opening closing depth => cases depth <;> rfl
    | statements ending => cases ending <;> rfl
    | suffixes inCondition => cases inCondition <;> rfl
    | function | initializer | closure => simp [Symbol.isHolder] at h
    | _ => rfl
  have hany := List.all_eq_true.1 hcheck k (List.mem_range.2 (by omega))
  obtain ⟨m, hm, hle⟩ := (Option.any_eq_true _ _).1 hany
  exact ⟨m, hm, by simpa using hle⟩

/-! ## What comes before a clause -/

lemma left_pos_of_reply {test : Test} (hend : test.atEnd = some false)
    (h : test.reply s.row.lead s.row.tokens = true) : 0 < s.left := by
  rw [Stage.left, List.length_pos_iff]
  intro hnil
  rw [hnil, reply_of_atEnd hend] at h
  simp at h

/-- Symbols that build no nodes. -/
def Symbol.leafy : Symbol → Bool
  | .group | .inGroup _ _ _ | .effects | .operatorRest | .closureNames => true
  | _ => false

/-- Whether a phrase builds no nodes. -/
def Phrase.leafy : Phrase Symbol → Bool
  | .skip | .take => true
  | .call X => X.leafy
  | .seq first second => first.leafy && second.leafy
  | .choose _ yes no => yes.leafy && no.leafy
  | .node _ _ | .mark _ | .wrap _ _ => false

lemma leafy_swift (h : X.leafy = true) : (swift X).leafy = true := by
  cases X with
  | inGroup opening closing depth => cases depth <;> rfl
  | group | effects | operatorRest | closureNames => rfl
  | _ => simp [Symbol.leafy] at h

/-- Such symbols move the tokens that they read into the tree as they are. -/
lemma leads_leafy (h : LeadsIn n phrase s t) (hleafy : phrase.leafy = true) :
    ∃ tokens, t.built = s.built ++ tokens.map Tree.leaf ∧ s.row.tokens = tokens ++ t.row.tokens := by
  induction h with
  | skip => exact ⟨[], by simp, rfl⟩
  | take n s =>
    refine ⟨s.row.tokens.take 1, rfl, ?_⟩
    rw [Stage.take, Row.tokens_rest, ← List.drop_one, List.take_append_drop]
  | call _ ih => exact ih (leafy_swift hleafy)
  | seq _ _ ih₁ ih₂ =>
    simp only [Phrase.leafy, Bool.and_eq_true] at hleafy
    obtain ⟨first, hbuilt₁, htokens₁⟩ := ih₁ hleafy.1
    obtain ⟨second, hbuilt₂, htokens₂⟩ := ih₂ hleafy.2
    exact ⟨first ++ second, by simp [hbuilt₂, hbuilt₁], by simp [htokens₁, htokens₂]⟩
  | yes _ _ ih => exact ih (Bool.and_eq_true_iff.1 hleafy).1
  | no _ _ ih => exact ih (Bool.and_eq_true_iff.1 hleafy).2
  | node | mark | wrap => simp [Phrase.leafy] at hleafy

/-- Where parameters end. -/
def endsParameters : List Kind := [.rparen, .rbrace, .lbrace]

lemma stops_of_parameters (h : LeadsIn n (.call .parameters) s t) :
    ∀ token ∈ t.row.tokens.head?, token.kind ∈ endsParameters := by
  induction n generalizing s t with
  | zero => cases h
  | succ n ih =>
    rw [leadsIn_call, swift] at h
    simp only [leadsIn_firstOf_cons, leadsIn_firstOf_nil, leadsIn_inOrder_cons, leadsIn_inOrder_nil, leadsIn_skip] at h
    obtain ⟨htest, rfl⟩ | ⟨-, ⟨-, m, -, u, hrest, rfl⟩ | ⟨-, ⟨-, m, -, u, hrest, rfl⟩ | ⟨htest, rfl⟩⟩⟩ := h
    · intro token htoken
      simpa [nextAny, reply, ← List.head?_eq_getElem?, Option.mem_def.1 htoken, endsParameters] using htest
    · exact ih hrest
    · exact ih hrest
    · intro token htoken
      simp [someToken, reply, ← List.head?_eq_getElem?, Option.mem_def.1 htoken] at htest

lemma not_endsParameters_of_arrow {lead : Pause} {tokens : List Token} (h : (next .arrow).reply lead tokens = true) :
    ∃ token ∈ tokens.head?, token.kind ∉ endsParameters := by
  obtain ⟨token, rest, rfl, hkind⟩ := exists_of_next h
  exact ⟨token, rfl, by simp [hkind, endsParameters]⟩

/-- A row of trees ends with one that is closed. -/
def Solid (row : List Tree) : Prop := ∃ front last, row = front ++ [last] ∧ last.hollow.isSolid = true

/-- The trees of one stage go on to those of another one with no clause among them. If `P` holds, they end with one that
is closed. -/
def Grows (P : Prop) (s t : Stage) : Prop :=
  ∃ new, t.built = s.built ++ new ∧ (∀ tree ∈ new, tree.isNode = true → tree.kind ≠ .returnClause) ∧
    (P → new = [] ∨ Solid new)

lemma Solid.append {more : List Tree} (h : Solid more) : Solid (row ++ more) := by
  obtain ⟨front, last, rfl, hlast⟩ := h
  exact ⟨row ++ front, last, by simp, hlast⟩

lemma solid_leaves {tokens : List Token} (h : tokens ≠ []) : Solid (tokens.map Tree.leaf) := by
  obtain ⟨front, token, rfl⟩ := (List.eq_nil_or_concat' tokens).resolve_left h
  exact ⟨front.map Tree.leaf, .leaf token, by simp, by simp [isSolid]⟩

/-- What a phrase adds to the trees since the mark comes behind them. -/
def Phrase.extends : Phrase Symbol → Bool
  | .skip | .take | .node _ _ | .mark _ => true
  | .call X => X.role == .adds
  | .seq first second => first.extends && second.extends
  | .choose _ yes no => yes.extends && no.extends
  | .wrap _ _ => false

lemma extends_swift (h : X.role = .adds) : (swift X).extends = true := by
  cases X with
  | inGroup opening closing depth => cases depth <;> rfl
  | _ => first | rfl | simp [Symbol.role] at h

/-- It does not depend on what is there. -/
lemma exists_append_of_extends (h : LeadsIn n phrase s t) (hextends : phrase.extends = true) :
    ∃ new, t.built = s.built ++ new ∧ ∀ built, LeadsIn n phrase ⟨built, s.row⟩ ⟨built ++ new, t.row⟩ := by
  induction h with
  | skip n s => exact ⟨[], by simp, fun built => by simp⟩
  | take n s => exact ⟨(s.row.tokens.take 1).map Tree.leaf, rfl, fun built => Reads.take n ⟨built, s.row⟩⟩
  | call _ ih =>
    obtain ⟨new, hbuilt, hreads⟩ := ih (extends_swift (by simpa [Phrase.extends] using hextends))
    exact ⟨new, hbuilt, fun built => .call (hreads built)⟩
  | seq _ _ ih₁ ih₂ =>
    simp only [Phrase.extends, Bool.and_eq_true] at hextends
    obtain ⟨new, hbuilt, hreads⟩ := ih₁ hextends.1
    obtain ⟨more, hbuilt', hreads'⟩ := ih₂ hextends.2
    refine ⟨new ++ more, by simp [hbuilt', hbuilt], fun built => ?_⟩
    have hseq := Reads.seq (hreads built) (hreads' (built ++ new))
    rwa [List.append_assoc] at hseq
  | yes htest _ ih =>
    simp only [Phrase.extends, Bool.and_eq_true] at hextends
    obtain ⟨new, hbuilt, hreads⟩ := ih hextends.1
    exact ⟨new, hbuilt, fun built => .yes htest (hreads built)⟩
  | no htest _ ih =>
    simp only [Phrase.extends, Bool.and_eq_true] at hextends
    obtain ⟨new, hbuilt, hreads⟩ := ih hextends.2
    exact ⟨new, hbuilt, fun built => .no htest (hreads built)⟩
  | @node _ kind _ s t h => exact ⟨[.node kind t.built], rfl, fun built => .node (s := ⟨built, s.row⟩) h⟩
  | @mark _ _ s t h => exact ⟨t.built, rfl, fun built => .mark (s := ⟨built, s.row⟩) h⟩
  | wrap => simp [Phrase.extends] at hextends

lemma exists_take (h : 0 < s.left) : ∃ token, s.take.built = s.built ++ [.leaf token] := by
  cases htokens : s.row.tokens with
  | nil => simp [Stage.left, htokens] at h
  | cons token rest => exact ⟨token, by simp [Stage.take, htokens]⟩

lemma exists_leaf_of_take {rest : Phrase Symbol} (h : LeadsIn n (.seq .take rest) s.opened t)
    (hrest : rest.extends = true) (hleft : 0 < s.left) : ∃ token row, t.built = .leaf token :: row := by
  cases h with
  | seq htake h =>
  cases htake
  obtain ⟨token, htake⟩ := exists_take (s := s.opened) hleft
  obtain ⟨new, hbuilt, -⟩ := exists_append_of_extends h hrest
  exact ⟨token, new, by rw [hbuilt, htake]; rfl⟩

lemma solid_take (h : 0 < s.take.left) : Solid s.take.built := by
  have htake : LeadsIn 0 .take s s.take := .take 0 s
  obtain ⟨token, htake⟩ := exists_take (h.trans_le htake.left_le)
  exact ⟨s.built, .leaf token, htake, by simp [isSolid]⟩

namespace Grows

variable {P Q : Prop}

lemma refl (P : Prop) (s : Stage) : Grows P s s := ⟨[], by simp, by simp, fun _ => .inl rfl⟩

lemma mono (h : Grows P s t) (hQ : Q → P) : Grows Q s t := by
  obtain ⟨new, hbuilt, hkinds, hsolid⟩ := h
  exact ⟨new, hbuilt, hkinds, fun hq => hsolid (hQ hq)⟩

lemma trans (h : Grows P s m) (h' : Grows P m t) : Grows P s t := by
  obtain ⟨new, hbuilt, hkinds, hsolid⟩ := h
  obtain ⟨more, hbuilt', hkinds', hsolid'⟩ := h'
  refine ⟨new ++ more, by simp [hbuilt', hbuilt], fun tree htree => ?_, fun hP => ?_⟩
  · exact (List.mem_append.1 htree).elim (hkinds tree) (hkinds' tree)
  · rcases hsolid' hP with rfl | hsolid'
    · simpa using hsolid hP
    · exact .inr hsolid'.append

lemma leaves {tokens : List Token} (P : Prop) (h : t.built = s.built ++ tokens.map Tree.leaf) : Grows P s t := by
  refine ⟨_, h, fun tree htree hnode => ?_, fun _ => ?_⟩
  · obtain ⟨token, -, rfl⟩ := List.mem_map.1 htree
    simp [isNode] at hnode
  · by_cases hnil : tokens = []
    · exact .inl (by simp [hnil])
    · exact .inr (solid_leaves hnil)

lemma take (P : Prop) (s : Stage) : Grows P s s.take := leaves P rfl

lemma node {kind : Kind} {children row : List Tree} {token : Token} (P : Prop)
    (hbuilt : t.built = s.built ++ [.node kind children]) (hrank : kind.rank = 0) (hkind : kind ≠ .returnClause)
    (hchildren : children = .leaf token :: row) : Grows P s t := by
  have hexpression : kind.isExpression = false := by
    by_contra h
    rw [Bool.not_eq_false] at h
    simp [Kind.rank_of_isExpression h] at hrank
  refine ⟨_, hbuilt, by simp [Tree.kind, hkind], fun _ => .inr ⟨[], _, rfl, ?_⟩⟩
  rw [hollow_node hexpression, hchildren]
  simp [isSolid, hrank, hollowOf_eq_map, isNode]

/-- Effects go on from what is closed, or are closed themselves. -/
lemma effects (h : Grows (∃ token ∈ m.row.tokens.head?, token.kind ∉ endsParameters) s m)
    (heffects : LeadsIn n (.call .effects) m t) :
    Grows ((next .arrow).reply t.row.lead t.row.tokens = true) s t := by
  obtain ⟨tokens, hbuilt, htokens⟩ := leads_leafy heffects rfl
  by_cases hnil : tokens = []
  · subst hnil
    have hrow : m.row.tokens = t.row.tokens := by simpa using htokens
    refine (h.mono fun harrow => ?_).trans (leaves _ hbuilt)
    rw [hrow]
    exact not_endsParameters_of_arrow harrow
  · obtain ⟨new, hnew, hkinds, -⟩ := h
    obtain ⟨more, hmore, hplain, -⟩ := leaves True hbuilt
    obtain rfl := List.append_cancel_left (hmore.symm.trans hbuilt)
    refine ⟨new ++ tokens.map Tree.leaf, by simp [hbuilt, hnew], fun tree htree => ?_, fun _ => .inr ?_⟩
    · exact (List.mem_append.1 htree).elim (hkinds tree) (hplain tree)
    · exact (solid_leaves hnil).append

end Grows

variable {P : Prop}

lemma grows_operatorName (h : LeadsIn n (.call .operatorName) s t) : Grows P s t := by
  induction n generalizing s t with
  | zero => cases h
  | succ n ih =>
    cases h with
    | call h =>
    cases h with
    | no _ h =>
      cases h
      exact .refl P s
    | yes _ h =>
    cases h with
    | seq htake h =>
    cases htake
    cases h with
    | seq h hskip =>
    cases hskip
    exact (Grows.take P s).trans (ih h)

lemma grows_genericParams (h : LeadsIn n (.call .genericParams) s t) : Grows P s t := by
  cases h with
  | call h =>
  cases h with
  | no _ h =>
    cases h
    exact .refl P s
  | yes htest h =>
  cases h with
  | node h =>
  obtain ⟨token, row, hrow⟩ := exists_leaf_of_take h rfl (left_pos_of_reply (s := s) rfl htest)
  exact .node P rfl rfl (by simp) hrow

lemma grows_attributeNodes (h : LeadsIn n (.call .attributeNodes) s t) : Grows P s t := by
  induction n generalizing s t with
  | zero => cases h
  | succ n ih =>
    cases h with
    | call h =>
    cases h with
    | no _ h =>
      cases h
      exact .refl P s
    | yes htest h =>
    cases h with
    | seq hfirst h =>
    cases h with
    | seq hrest hskip =>
    cases hskip
    refine Grows.trans ?_ (ih hrest)
    cases hfirst with
    | call hfirst =>
    cases hfirst with
    | node h =>
    obtain ⟨token, row, hrow⟩ := exists_leaf_of_take h rfl (left_pos_of_reply (s := s) rfl htest)
    exact .node P rfl rfl (by simp) hrow

/-- Parameters before an arrow are closed. -/
lemma grows_parameterClause (h : LeadsIn n (.call .parameterClause) s t) :
    Grows (∃ token ∈ t.row.tokens.head?, token.kind ∉ endsParameters) s t := by
  cases h with
  | call h =>
  cases h with
  | no _ h =>
    cases h
    exact .refl _ s
  | yes _ h =>
  cases h with
  | node h =>
  refine ⟨_, rfl, by simp [Tree.kind], fun hends => .inr ⟨[], _, rfl, ?_⟩⟩
  cases h with
  | seq _ h =>
  cases h with
  | seq hparameters h =>
  cases h with
  | seq haccept hskip =>
  cases hskip
  cases haccept with
  | no _ h =>
    cases h
    obtain ⟨token, htoken, hkind⟩ := hends
    exact absurd (stops_of_parameters hparameters token htoken) hkind
  | yes htest h =>
    cases h
    obtain ⟨token, htake⟩ := exists_take (left_pos_of_reply rfl htest)
    rw [hollow_node rfl, htake, hollowOf_eq_map]
    simp [isSolid, isNode]

/-- The parameters of a closure. -/
def closureParameters : Phrase Symbol :=
  choose (next .lparen) (call .parameterClause) (opt (next .ident) <| node .closureParams <| call .closureNames)

lemma grows_closureParameters (h : LeadsIn n closureParameters s t) :
    Grows (∃ token ∈ t.row.tokens.head?, token.kind ∉ endsParameters) s t := by
  cases h with
  | yes _ h => exact grows_parameterClause h
  | no _ h =>
  cases h with
  | no _ h =>
    cases h
    exact .refl _ s
  | yes htest h =>
  cases h with
  | node h =>
  cases h with
  | call h =>
  cases h with
  | no hno _ =>
    have hyes : (next .ident).reply s.opened.row.lead s.opened.row.tokens = true := htest
    rw [hyes] at hno
    cases hno
  | yes _ h =>
  obtain ⟨token, row, hrow⟩ := exists_leaf_of_take h rfl (left_pos_of_reply (s := s) rfl htest)
  exact .node _ rfl rfl (by simp) hrow

/-- Before the clause of a signature there is something that is closed, unless there is nothing before it and a token is
left, and no other clause. -/
def Heads (left : Nat) (children : List Tree) : Prop :=
  ∀ before clause after, children = before ++ clause :: after → clause.isNode = true → clause.kind = .returnClause →
    (before = [] ∧ 0 < left ∨ Solid before) ∧ ∀ tree ∈ before, tree.isNode = true → tree.kind ≠ .returnClause

/-- A clause is read behind what is closed. -/
lemma heads_of_grows (h : Grows ((next .arrow).reply m.row.lead m.row.tokens = true) s.opened m) (hleft : m.left ≤ s.left)
    (hclause : LeadsIn n (.call .returnClause) m t) (tokens : List Token) :
    Heads s.left (t.built ++ tokens.map Tree.leaf) := by
  obtain ⟨new, hnew, hkinds, hsolid⟩ := h
  have hnew : m.built = new := by simpa [Stage.opened] using hnew
  intro before clause after hrow hnode hkind
  have hplain : clause ∉ new := fun hmem => hkinds clause hmem hnode hkind
  have hleaves : clause ∉ tokens.map Tree.leaf := by
    intro hmem
    obtain ⟨token, -, rfl⟩ := List.mem_map.1 hmem
    simp [isNode] at hnode
  have hclause : t = m ∨ (next .arrow).reply m.row.lead m.row.tokens = true ∧
      ∃ children, t.built = m.built ++ [.node .returnClause children] := by
    cases hclause with
    | call h =>
      obtain ⟨harrow, h⟩ | ⟨-, rfl⟩ := leadsIn_opt.1 h
      · obtain ⟨u, -, rfl⟩ := leadsIn_node.1 h
        exact .inr ⟨harrow, u.built, rfl⟩
      · exact .inl rfl
  rcases hclause with rfl | ⟨harrow, children, hbuilt⟩
  · have hmem : clause ∈ new ++ tokens.map Tree.leaf := by
      rw [← hnew, hrow]
      simp
    exact ((List.mem_append.1 hmem).elim hplain hleaves).elim
  · rw [hbuilt, hnew, List.append_assoc, List.singleton_append] at hrow
    obtain ⟨rfl, -, -⟩ := (List.append_cons_inj_of_notMem hplain hleaves).1 hrow
    refine ⟨(hsolid harrow).imp_left fun hnil => ⟨hnil, ?_⟩, hkinds⟩
    exact (left_pos_of_reply rfl harrow).trans_le hleft

lemma reads_signature (h : LeadsIn n (.call .signature) s t) :
    ∃ children, t.built = s.built ++ [.node .functionSignature children] ∧ Heads s.left children := by
  cases h with
  | call h =>
  cases h with
  | @node _ _ _ _ u h =>
  refine ⟨u.built, rfl, ?_⟩
  cases h with
  | seq hparameters h =>
  cases h with
  | seq heffects h =>
  cases h with
  | seq hclause hskip =>
  cases hskip
  have hgrows := (grows_parameterClause hparameters).effects heffects
  simpa using heads_of_grows hgrows (heffects.left_le.trans hparameters.left_le) hclause []

lemma reads_closureSignature (h : LeadsIn n (.call .closureSignature) s t) :
    ∃ children, t.built = s.built ++ [.node .closureSignature children] ∧ Heads s.left children := by
  cases h with
  | call h =>
  cases h with
  | @node _ _ _ _ u h =>
  refine ⟨u.built, rfl, ?_⟩
  cases h with
  | seq hattributes h =>
  cases h with
  | seq hgroup h =>
  cases h with
  | seq hparameters h =>
  cases h with
  | seq heffects h =>
  cases h with
  | seq hclause h =>
  cases h with
  | seq haccept hskip =>
  cases hskip
  obtain ⟨group, hgroup', -⟩ := leads_leafy hgroup rfl
  obtain ⟨tokens, haccept, -⟩ := leads_leafy haccept rfl
  have hgrows := ((grows_attributeNodes hattributes).trans
    ((Grows.leaves _ hgroup').trans (grows_closureParameters hparameters))).effects heffects
  have hleft := heffects.left_le.trans (hparameters.left_le.trans (hgroup.left_le.trans hattributes.left_le))
  rw [haccept]
  exact heads_of_grows hgrows hleft hclause tokens

/-- What comes before a clause is closed, in the signature or before it. -/
lemma headed_of_heads (hfront : Bounded 2 front) (hback : Bounded 2 back) (hheld : held.isExpression = false)
    (hheads : Heads left children) (hleft : 0 < left → Solid front) {f b before after : List Tree}
    {signature clause : Tree} (hrow : hollowOf (front ++ .node held children :: back) = f ++ signature :: b)
    (hsignature : signature.isNode = true) (hrank : signature.kind.rank = 3)
    (hchildren : signature.children = before ++ clause :: after) (hnode : clause.isNode = true)
    (hkind : clause.kind = .returnClause) :
    (∃ last, before.getLast?.or f.getLast? = some last ∧ last.isSolid = true) ∧
      ∀ tree ∈ before, tree.isNode = true → tree.kind ≠ .returnClause := by
  have hfront' := hfront.not_mem_hollowOf le_rfl hsignature hrank
  have hback' := hback.not_mem_hollowOf le_rfl hsignature hrank
  simp only [hollowOf_eq_map] at hfront' hback' hrow
  rw [List.map_append, List.map_cons] at hrow
  obtain ⟨rfl, hhead, -⟩ := (List.append_cons_inj_of_notMem hfront' hback').1 hrow
  rw [← hhead, hollow_node hheld, Tree.children, hollowOf_eq_map] at hchildren
  obtain ⟨before, row, rfl, rfl, hrest⟩ := List.map_eq_append_iff.1 hchildren
  obtain ⟨clause, after, rfl, rfl, rfl⟩ := List.map_eq_cons_iff.1 hrest
  rw [isNode_hollow] at hnode
  obtain ⟨hsolid, hsingle⟩ := hheads before clause after rfl hnode (kind_of_hollow hkind (by simp))
  constructor
  · rcases hsolid with ⟨rfl, hpos⟩ | hsolid
    · obtain ⟨row, last, rfl, hlast⟩ := hleft hpos
      exact ⟨last.hollow, by simp, hlast⟩
    · obtain ⟨row, last, rfl, hlast⟩ := hsolid
      exact ⟨last.hollow, by simp, hlast⟩
  · intro tree htree hnode hkind
    obtain ⟨whole, hwhole, rfl⟩ := List.mem_map.1 htree
    exact hsingle whole hwhole (by simpa using hnode) (kind_of_hollow hkind (by simp))

/-- A node fits if it holds one signature, and what comes before the clause in there is closed. -/
lemma fitted_holder (hfront : Bounded 2 front) (hsignature : Bounded 3 (front ++ [.node held children]))
    (hback : Bounded 2 back) (hkind : kind.holdsSignature = true) (hheld : held.isExpression = false)
    (hopening : kind = .closureExpr → ∃ token row, front = .leaf token :: row) (hheads : Heads left children)
    (hleft : 0 < left → Solid front) : (Tree.node kind (front ++ .node held children :: back)).Fitted := by
  refine fitted_node ⟨by simp [hkind], fun hclosure child hchild => ?_, ?_⟩ fun child hchild => ?_
  · obtain ⟨token, row, rfl⟩ := hopening hclosure
    obtain rfl : .leaf token = child := by simpa [hollowOf_eq_map] using hchild
    rfl
  · intro f signature b hrow hnode hrank before clause after hchildren hclause hkind
    exact headed_of_heads hfront hback hheld hheads hleft hrow hnode hrank hchildren hclause hkind
  · rw [← List.singleton_append, ← List.append_assoc] at hchild
    exact (List.mem_append.1 hchild).elim (fun h => (hsignature child h).1) fun h => (hback child h).1

lemma Grows.solid (h : Grows True s t) (hleft : t.left ≤ s.left) (hs : 0 < s.left → Solid s.built) (hpos : 0 < t.left) :
    Solid t.built := by
  obtain ⟨new, hbuilt, -, hsolid⟩ := h
  rw [hbuilt]
  rcases hsolid trivial with rfl | hsolid
  · simpa using hs (hpos.trans_le hleft)
  · exact hsolid.append

/-- A function fits, whatever stands for its name. -/
lemma fitted_declaration (hcall : KeepsRanks n) (hkind : kind.holdsSignature = true) (hclosure : kind ≠ .closureExpr)
    {name : Phrase Symbol} (hname : name.ranks 2 = some 2)
    (hgrows : ∀ {s t}, LeadsIn n name s t → Grows True s t) (h : LeadsIn n (.seq .take (.seq name (inOrder
      [call .genericParams, call .signature, call .whereClause, call .codeBlock]))) s t) (hs : Bounded 2 s.built) :
    (Tree.node kind t.built).Fitted := by
  cases h with
  | seq htake h =>
  cases htake
  cases h with
  | seq hreads h =>
  cases h with
  | seq hgenerics h =>
  cases h with
  | seq hsignature hrest =>
  have hfront := hcall _ _ _ hgenerics 2 le_rfl
    (bounded_of_ranks hcall hreads hname (hs.append (Bounded.leaves 2 (s.row.tokens.take 1))))
  have hsolid := ((hgrows hreads).trans (grows_genericParams hgenerics)).solid
    (hgenerics.left_le.trans hreads.left_le) solid_take
  have hheld := hcall _ _ _ hsignature 2 (by decide) hfront
  obtain ⟨children, hbuilt, hheads⟩ := reads_signature hsignature
  obtain ⟨back, hback, hreads⟩ := exists_append_of_extends hrest rfl
  have hbounded := bounded_of_ranks hcall (hreads []) (k := 0) (m := 2) rfl (Bounded.nil 0)
  rw [hbuilt] at hheld
  rw [hback, hbuilt, List.append_assoc, List.singleton_append]
  exact fitted_holder hfront hheld hbounded hkind rfl (by simp [hclosure]) hheads hsolid

/-- Where no token is left, nothing is built behind the brace of a closure. -/
lemma built_of_left_eq_zero
    (h : LeadsIn n (inOrder [opt closureHead (call .closureSignature), call (.statements .brace), accept .rbrace]) s t)
    (hs : s.left = 0) : t.built = s.built := by
  have hend : ∀ {test : Test} {m : Stage}, test.atEnd = some false → test.reply m.row.lead m.row.tokens = true →
      m = s → False := by
    rintro test m htest hreply rfl
    have hpos := left_pos_of_reply htest hreply
    omega
  cases h with
  | seq hhead h =>
  cases h with
  | seq hbody h =>
  cases h with
  | seq haccept hskip =>
  cases hskip
  cases hhead with
  | yes htest _ => exact (hend rfl htest rfl).elim
  | no _ hhead =>
  cases hhead
  cases hbody with
  | call hbody =>
  cases hbody with
  | yes htest _ => exact (hend rfl htest rfl).elim
  | no _ hbody =>
  cases hbody
  cases haccept with
  | yes htest _ => exact (hend rfl htest rfl).elim
  | no _ haccept =>
  cases haccept
  rfl

lemma fitted_closure (hcall : KeepsRanks n)
    (h : LeadsIn n (inOrder [take, opt closureHead (call .closureSignature), call (.statements .brace),
      accept .rbrace]) s.opened t) : (Tree.node .closureExpr t.built).Fitted := by
  cases h with
  | seq htake h =>
  cases htake
  by_cases hleft : s.left = 0
  · have htokens : s.row.tokens = [] := List.length_eq_zero_iff.1 hleft
    have hbuilt := built_of_left_eq_zero h (by simp [Stage.left, Stage.take, Stage.opened, htokens])
    have hnil : t.built = [] := by simpa [Stage.take, Stage.opened, htokens] using hbuilt
    rw [hnil]
    exact fitted_node ⟨by simp [Kind.holdsSignature], by simp [hollowOf_eq_map], by simp [hollowOf_eq_map]⟩ (by simp)
  obtain ⟨token, hfirst⟩ := exists_take (s := s.opened) (Nat.pos_of_ne_zero hleft)
  have hfirst : s.opened.take.built = [.leaf token] := hfirst
  have hfront : Bounded 2 s.opened.take.built := by
    rw [hfirst]
    exact Bounded.leaves 2 [token]
  cases h with
  | seq hhead hrest =>
  obtain ⟨back, hback, hreads⟩ := exists_append_of_extends hrest rfl
  have hbounded := bounded_of_ranks hcall (hreads []) (k := 0) (m := 2) rfl (Bounded.nil 0)
  rw [List.nil_append] at hbounded
  cases hhead with
  | no _ hhead =>
    cases hhead
    have hrow := hfront.append hbounded
    rw [hback]
    refine fitted_node ⟨by simp [Kind.holdsSignature], fun _ child hchild => ?_, ?_⟩ fun child hchild => (hrow child hchild).1
    · obtain rfl : .leaf token = child := by simpa [hfirst, hollowOf_eq_map] using hchild
      rfl
    · intro front signature back hrow' hnode hrank
      exact absurd (by simp [hrow']) (hrow.not_mem_hollowOf le_rfl hnode hrank)
  | yes _ hhead =>
    have hheld := hcall _ _ _ hhead 2 (by decide) hfront
    obtain ⟨children, hbuilt, hheads⟩ := reads_closureSignature hhead
    rw [hbuilt] at hheld
    rw [hback, hbuilt, List.append_assoc, List.singleton_append]
    exact fitted_holder hfront hheld hbounded rfl rfl (fun _ => ⟨token, [], hfirst⟩) hheads fun _ =>
      ⟨[], .leaf token, hfirst, by simp [isSolid]⟩

lemma bounded_singleton (h : (Tree.node kind row).Fitted) (hk : kind.rank ≤ k) : Bounded k [.node kind row] := by
  intro tree htree
  obtain rfl := List.mem_singleton.1 htree
  exact ⟨h, fun _ => hk⟩

/-- Symbols keep to their ranks. -/
lemma keepsRanks (n : Nat) : KeepsRanks n := by
  induction n with
  | zero =>
    intro X s t h
    cases h
  | succ n ih =>
    intro X s t h k hk hs
    cases h with
    | call h =>
    cases hX : X.isHolder with
    | false =>
      obtain ⟨m, hranks, hm⟩ := ranks_swift hX hk
      exact (bounded_of_ranks ih h hranks hs).mono hm
    | true =>
      cases X with
      | function =>
        cases h with
        | wrap h =>
        refine bounded_singleton (fitted_declaration ih rfl (by simp) rfl (fun hname => ?_) h (hs.mono hk)) (le_max_right _ _)
        cases hname with
        | yes _ h =>
          cases h
          exact .take _ _
        | no _ h => exact grows_operatorName h
      | initializer =>
        cases h with
        | wrap h =>
        refine bounded_singleton (fitted_declaration ih rfl (by simp) rfl (fun hname => ?_) h (hs.mono hk)) (le_max_right _ _)
        obtain ⟨tokens, hbuilt, -⟩ := leads_leafy hname rfl
        exact .leaves _ hbuilt
      | closure =>
        cases h with
        | node h => exact (hs.mono (le_max_left _ _)).append (bounded_singleton (fitted_closure ih h) (le_max_right _ _))
      | _ => simp [Symbol.isHolder] at hX

/-- In the tree of a text nodes hold what they may. -/
theorem fitted_parse (text : String) : (parse text).bare.Fitted := by
  obtain ⟨n, t, hreads, -, hbare⟩ := exists_reads (tokensOf text)
  have hbounded := keepsRanks n _ _ _ hreads 0 (Nat.zero_le _) (Bounded.nil 0)
  rw [parse, hbare]
  exact fitted_node (hbounded.fits le_rfl rfl) fun child hchild => (hbounded child hchild).1

end Grammar

end SwiftTidy

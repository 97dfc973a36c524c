import SwiftTidy.Proofs.Sites
import SwiftTidy.Rules.Expectation

/-!
# The links of an expectation

What has to be found in a tree for an expectation to be rewritten, link by link: the call of a member, the call
of `expect` that it is a member of, the one argument and the call of a matcher that it consists of.
-/

namespace SwiftTidy.Rules.Expectation

/-- The part is a call. -/
def IsCall (part : Part) : Prop := part.tree.isNode = true ∧ part.kind = .callExpr

/-- What a matcher compares with, if it takes an argument. -/
def operand? (matching : Part) : Option (Option Part) :=
  match matching.arguments.head? with
  | none => some none
  | some first => first.expression?.map some

/-- The links of the chain at a path. -/
structure Links (tree : Tree) (path : Path) (chain : Chain)
    (call member subject argument matching : Part) : Prop where
  part : tree.part? path = some call
  isCall : IsCall call
  notSubscript : call.isSubscript = false
  noClosure : call.trailingClosure? = none
  loose : (tree.ownerKind? path).any bindsTightly = false
  member_eq : call.expression? = some member
  member_kind : member.kind = .memberExpr
  negated : ∃ name negated, member.name? = some name ∧ ruledOut? name = some negated ∧
    chain.matcher.operator? negated = some chain.operator
  subject_eq : member.expression? = some subject
  subject_isCall : IsCall subject
  subject_name : subject.calledName? = some "expect"
  subject_noClosure : subject.trailingClosure? = none
  subject_arguments : subject.arguments.length = 1
  arguments_eq : call.arguments = [argument]
  unlabelled : argument.label? = none
  matching_eq : argument.expression? = some matching
  matching_isCall : IsCall matching
  matching_noClosure : matching.trailingClosure? = none
  matcher : ∃ name, matching.calledName? = some name ∧ Matcher.named? name = some chain.matcher
  matching_arguments : matching.arguments.length = chain.matcher.arity
  matching_unlabelled : ∀ part ∈ matching.arguments, part.label? = none
  subject_tree : chain.subject = subject.tree
  operand : (operand? matching).map (Option.map Part.tree) = some chain.argument?

lemma call?_eq_some_iff {part call : Part} : call? part = some call ↔ part = call ∧ IsCall call := by
  simp only [call?, Option.ite_none_right_eq_some, Bool.and_eq_true, beq_iff_eq, Option.some.injEq, IsCall]
  constructor
  · rintro ⟨h, rfl⟩
    exact ⟨rfl, h⟩
  · rintro ⟨rfl, h⟩
    exact ⟨h, rfl⟩

lemma bind_eq_some_iff {α β : Type} {x : Option α} {f : α → Option β} {b : β} :
    (x >>= f) = some b ↔ ∃ a, x = some a ∧ f a = some b :=
  Option.bind_eq_some_iff

lemma guard_eq_some_iff {condition : Bool} {u : Unit} :
    (if condition = true then pure () else failure : Option Unit) = some u ↔ condition = true := by
  cases condition <;> simp

/-- How the last step puts a chain together. -/
lemma finish_eq_some_iff {matching : Part} {subject : Tree} {matcher : Matcher} {operator : String}
    {chain : Chain} :
    (match matching.arguments.head? with
      | none => pure ⟨subject, matcher, operator, none⟩
      | some first => first.expression? >>= fun part => pure ⟨subject, matcher, operator, some part.tree⟩) =
        some chain ↔
      chain.subject = subject ∧ chain.matcher = matcher ∧ chain.operator = operator ∧
        (operand? matching).map (Option.map Part.tree) = some chain.argument? := by
  obtain ⟨s, m, o, a⟩ := chain
  cases h : matching.arguments.head? with
  | none => simp [operand?, h, eq_comm]
  | some first =>
    cases he : first.expression? with
    | none => simp [operand?, h, he]
    | some part => simp [operand?, h, he, eq_comm]

/-- There is a chain at a path exactly if all its links are there. -/
theorem chain?_eq_some_iff {tree : Tree} {path : Path} {chain : Chain} :
    chain? tree path = some chain ↔
      ∃ call member subject argument matching, Links tree path chain call member subject argument matching := by
  unfold chain?
  simp only [↓bind_eq_some_iff, guard, guard_eq_some_iff, call?_eq_some_iff]
  constructor
  · rintro ⟨call, hpart, _, ⟨rfl, hcall⟩, -, hplain, -, hloose, member, hmember, -, hkind, name, hname, negated,
      hnegated, subject, hsubject, _, ⟨rfl, hsubjectCall⟩, expect, hexpect, -, hspelled, -, hshape, h⟩
    split at h
    next argument harguments =>
      simp only [↓bind_eq_some_iff, guard_eq_some_iff, call?_eq_some_iff] at h
      obtain ⟨-, hlabel, matching, hmatching, _, ⟨rfl, hmatchingCall⟩, -, hclosure, matcherName, hmatcherName,
        matcher, hmatcher, operator, hoperator, -, hshape', h⟩ := h
      obtain ⟨hsubjectTree, rfl, rfl, hoperand⟩ := finish_eq_some_iff.1 h
      simp only [Bool.and_eq_true, Bool.not_eq_true', Option.isNone_iff_eq_none, beq_iff_eq,
        List.all_eq_true] at hplain hloose hkind hspelled hshape hlabel hclosure hshape'
      subst hspelled
      exact ⟨call, member, subject, argument, matching, hpart, hcall, hplain.1, hplain.2, hloose, hmember, hkind,
        ⟨name, negated, hname, hnegated, hoperator⟩, hsubject, hsubjectCall, hexpect, hshape.1, hshape.2,
        harguments, hlabel, hmatching, hmatchingCall, hclosure, ⟨matcherName, hmatcherName, hmatcher⟩, hshape'.1,
        hshape'.2, hsubjectTree, hoperand⟩
    next => simp at h
  · rintro ⟨call, member, subject, argument, matching, h⟩
    obtain ⟨name, negated, hname, hnegated, hoperator⟩ := h.negated
    obtain ⟨matcherName, hmatcherName, hmatcher⟩ := h.matcher
    refine ⟨call, h.part, call, ⟨rfl, h.isCall⟩, (), by simp [h.notSubscript, h.noClosure], (), by simp [h.loose],
      member, h.member_eq, (), by simp [h.member_kind], name, hname, negated, hnegated, subject, h.subject_eq,
      subject, ⟨rfl, h.subject_isCall⟩, "expect", h.subject_name, (), by simp, (),
      by simp [h.subject_noClosure, h.subject_arguments], ?_⟩
    simp only [h.arguments_eq, ↓bind_eq_some_iff, guard_eq_some_iff, call?_eq_some_iff]
    refine ⟨(), by simp [h.unlabelled], matching, h.matching_eq, matching, ⟨rfl, h.matching_isCall⟩, (),
      by simp [h.matching_noClosure], matcherName, hmatcherName, chain.matcher, hmatcher, chain.operator, hoperator,
      (), ?_, finish_eq_some_iff.2 ⟨h.subject_tree, rfl, rfl, h.operand⟩⟩
    simpa [h.matching_arguments] using h.matching_unlabelled

end SwiftTidy.Rules.Expectation

import SwiftTidy.Proofs.Lossless
import SwiftTidy.Proofs.Outline

/-!
# The shape of Swift trees

Every tree that is read from a text has the shape that rules rely on: a call begins with the expression that is
called, a list of arguments with its bracket, a return clause with its arrow, a tuple type with its parenthesis, and
every other expression with a significant token or with an expression.
-/

namespace SwiftTidy

namespace Grammar

open Phrase Test

namespace Symbol

/-- How a symbol goes about the trees built since the mark. -/
def role : Symbol → Role
  | .exprSuffixes _ | .suffixes _ => .prolongs
  | .function | .initializer | .subscript | .typeDecl | .variable | .importDecl | .typealias | .enumCase
  | .typeSuffixes => .wraps
  | _ => .adds

/-- What a symbol adds first at its opening. -/
def yields : Symbol → First
  | .expr _ | .unary _ | .postfixed _ | .primary | .arrayExpr | .closure => .expression
  | .arguments _ => .token
  | _ => .anything

end Symbol

/-- What the symbols of Swift do with the trees built since the mark. -/
def swiftOutline : Outline Symbol := ⟨swiftGuide, Symbol.role, Symbol.yields⟩

/-- Whether a symbol is called only before one of its sure kinds. -/
def Symbol.known (X : Symbol) : Bool := X.isPlain && X.needsOpening

variable {X : Symbol} {r : List Token}

lemma sees_of_known (h : X.known = true) (hready : swiftGuide.ready X r) :
    (Test.sees 0 (swiftGuide.sure X)).holds r = true := by
  rw [Symbol.known, Bool.and_eq_true] at h
  have hopen : X.opening.holds r = true := hready h.2
  rwa [opening_of_isPlain h.1] at hopen

/-- What is known of the next token where a symbol begins. -/
def Symbol.outset (X : Symbol) : View := if X.known then Outline.before X.sure else .blind false false

lemma describes_outset (hready : swiftGuide.ready X r) : X.outset.Describes r r := by
  unfold Symbol.outset
  split
  next hknown => exact Outline.describes_before (sees_of_known hknown hready)
  next => exact View.Describes.start r

lemma outlined_inGroup (opening closing : Kind) (depth : Nat) :
    swiftOutline.outlined false (.inGroup opening closing depth) (swift (.inGroup opening closing depth)) =
      true := by
  cases depth <;>
    simp [swift, Outline.outlined, Outline.trace, inOrder, firstOf, swiftOutline, Symbol.role, Symbol.yields]

lemma Symbol.Barred.role_eq (h : X.Barred) : X.role = .adds := by
  rcases h.form with ⟨closing, rfl | rfl | rfl⟩ <;> rfl

lemma outlined_of_barred (h : X.Barred) (phrase : Phrase Symbol) : swiftOutline.outlined X.known X phrase = true := by
  simp [Symbol.known, h.plain, h.needs, Outline.outlined, swiftOutline, swiftGuide, h.sure, h.role_eq, Outline.before,
    View.dead, View.within]

lemma outlined_swift (X : Symbol) : swiftOutline.outlined X.known X (swift X) = true :=
  Symbol.forall_of_listed (P := fun X => swiftOutline.outlined X.known X (swift X) = true) (by decide +kernel)
    outlined_inGroup (fun _ hbarred => outlined_of_barred hbarred _) X

lemma keeps_swift {n : Nat} {s : Progress} (hready : swiftGuide.ready X s.rest) (hn : swiftGuide.effort X s.rest < n) :
    swiftOutline.Keeps X s (derive swift n X s) := by
  refine swiftPlan.derive_induction swiftOutline.Keeps ?_ hready hn
  intro X s hready
  exact Outline.keeps_of_outlined (outlined_swift X) fun hknown => sees_of_known hknown hready

end Grammar

open Grammar

/-- The tree of a text has the shape that is expected of it. -/
theorem shaped_parse (text : String) : (parse text).Shaped := by
  have hready : swiftGuide.ready (.statements .fileEnd) (tokensOf text) :=
    fun hneeds => by simp [swiftGuide, Symbol.needsOpening] at hneeds
  have hkeeps := keeps_swift (s := ⟨[], tokensOf text⟩) hready (effort_file (tokensOf text))
  obtain ⟨new, hbuilt, hshaped, -⟩ := hkeeps
  rw [parse, parseTokens]
  refine Tree.shaped_node .anything rfl trivial ?_
  rw [Progress.built_flush, hbuilt, List.nil_append]
  exact shaped_append hshaped (shaped_leaves _)

end SwiftTidy

import SwiftTidy.Text.Blank
import SwiftTidy.Text.Word

/-!
# Directives

A directive is a comment that switches rules off or on again:

* `// kestrel:disable a b` switches the rules `a` and `b` off from here on;
* `// kestrel:enable a` switches `a` on again;
* `// kestrel:disable:next a` switches `a` off on the next line only, and `this` and `previous` in place of
  `next` name the line of the comment and the one before it.

What follows the rules after ` - ` is an explanation. A block comment is a directive in the same way.
-/

namespace SwiftTidy

open Text

/-- A single line, named from where a directive stands. -/
inductive LineScope where
  /-- The line before that of the directive. -/
  | previous
  | this
  /-- The line after that of the directive. -/
  | next
  deriving DecidableEq, Repr

/-- What a directive does with its rules. -/
inductive Action where
  /-- Switches them off from the directive on. -/
  | disable
  | disableLine (scope : LineScope)
  | enable
  deriving DecidableEq, Repr

/-- A directive. -/
structure Directive where
  action : Action
  /-- The rules that it names, in order and with repetitions. There is at least one. -/
  rules : List String
  deriving DecidableEq, Repr

/-- Why a comment that begins like a directive is none. -/
inductive DirectiveProblem where
  | unknownModifier (modifier : String)
  /-- Rules are switched on from a place on, never on one line. -/
  | modifierOnEnable
  /-- Something follows the action without a blank. -/
  | malformed (comment : String)
  | namesNoRules
  deriving DecidableEq, Repr

namespace LineScope

def name : LineScope → String
  | .previous => "previous"
  | .this => "this"
  | .next => "next"

def ofName? (name : String) : Option LineScope :=
  [LineScope.previous, .this, .next].find? fun scope => scope.name == name

end LineScope

namespace DirectiveProblem

/-- What a reader is told. -/
def message : DirectiveProblem → String
  | .unknownModifier modifier => "unknown directive modifier '" ++ modifier ++ "'"
  | .modifierOnEnable => "line modifiers only apply to 'disable'"
  | .malformed comment => "malformed directive '" ++ comment ++ "'"
  | .namesNoRules => "directive names no rules"

end DirectiveProblem

namespace Directive

/-- What follows a given beginning. -/
def after? : List Char → List Char → Option (List Char)
  | [], cs => some cs
  | c :: start, d :: rest => if c == d then after? start rest else none
  | _ :: _, [] => none

/-- The inside of a comment, from behind its opening slashes or stars on. -/
def inside? : List Char → Option (List Char)
  | '/' :: '/' :: rest => some (rest.dropWhile (· == '/'))
  | '/' :: '*' :: rest => some (rest.dropWhile (· == '*'))
  | _ => none

def atEnd (cs : List Char) : Bool :=
  cs.all isBlank ||
    match cs, cs.dropWhile (· == '*') with
    | '*' :: _, '/' :: rest => rest.all isBlank
    | _, _ => false

/-- The shortest beginning of `cs`, all on one line, behind which a comment ends. -/
def body? : List Char → Option (List Char)
  | [] => some []
  | c :: rest =>
    if atEnd (c :: rest) then some []
    else if c == '\n' then none
    else (body? rest).map (c :: ·)

/-- What stands before the first ` - `. -/
def beforeExplanation : List Char → List Char
  | [] => []
  | c :: rest =>
    if (after? [' ', '-', ' '] (c :: rest)).isSome then [] else c :: beforeExplanation rest

/-- The pieces of `cs` between separators, where `word` is the beginning of the first one, backwards. -/
def splitWith (isSeparator : Char → Bool) (word : List Char) : List Char → List (List Char)
  | [] => [word.reverse]
  | c :: rest =>
    if isSeparator c then word.reverse :: splitWith isSeparator [] rest
    else splitWith isSeparator (c :: word) rest

/-- The words of `cs`, parted by blanks and commas. -/
def words (cs : List Char) : List String :=
  ((splitWith (fun c => isBlank c || c == ',') [] cs).filter fun word => !word.isEmpty).map
    String.ofList

/-- The parts of a comment that has the form of a directive. -/
structure Draft where
  /-- Whether rules are switched on, and not off. -/
  enables : Bool
  /-- The word behind the action and a colon. -/
  modifier? : Option String
  /-- What follows, up to the end of the comment. -/
  body : List Char

/-- The parts of a comment, if it has the form of a directive at all. -/
def draft? (comment : List Char) : Option Draft := do
  let text ← after? "kestrel:".toList ((← inside? comment).dropWhile isBlank)
  let (enables, rest) ←
    ((after? "disable".toList text).map fun rest => (false, rest)).or
      ((after? "enable".toList text).map fun rest => (true, rest))
  match rest with
  | ':' :: rest =>
    let body ← body? (rest.dropWhile isWordChar)
    pure ⟨enables, some (String.ofList (rest.takeWhile isWordChar)), body⟩
  | _ =>
    let body ← body? rest
    pure ⟨enables, none, body⟩

namespace Draft

/-- The action of a draft. -/
def action (draft : Draft) : Except DirectiveProblem Action :=
  match draft.modifier? with
  | none => .ok (if draft.enables then .enable else .disable)
  | some modifier =>
    match LineScope.ofName? modifier with
    | none => .error (.unknownModifier modifier)
    | some scope => if draft.enables then .error .modifierOnEnable else .ok (.disableLine scope)

/-- The directive of a draft that was read from `comment`. -/
def directive (draft : Draft) (comment : List Char) : Except DirectiveProblem Directive := do
  let action ← draft.action
  match draft.body.head? with
  | some c => if isBlank c then pure () else throw (.malformed (String.ofList (trim comment)))
  | none => pure ()
  let rules := words (beforeExplanation draft.body)
  if rules.isEmpty then throw .namesNoRules
  return ⟨action, rules⟩

end Draft

/-- Reads a comment. There is no directive in most comments. -/
def ofComment (comment : String) : Except DirectiveProblem (Option Directive) :=
  let cs := comment.toList
  match draft? cs with
  | none => .ok none
  | some draft => (draft.directive cs).map some

end Directive

end SwiftTidy

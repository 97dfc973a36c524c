import SwiftTidy.Proofs.Lossless
import SwiftTidy.Proofs.Offsets

/-!
# Regions and nesting

The regions of a file come from stacks: a directive that switches a rule on closes the region that was opened last.
Whether an offset lies in one of them can be told without any stack, by counting (`Regions.covers_forRule_iff`). What
is open when the reading has come to an offset is as much as the count of the directives before it says, and
all of it is closed behind the offset. What is opened later lies behind the offset. A directive for one line counts
for the offsets of this line.
-/

namespace SwiftTidy

/-- The second line is the one that a scope names from the first. -/
def LineScope.Names : LineScope → Nat → Nat → Prop
  | .previous, here, line => line + 1 = here
  | .this, here, line => line = here
  | .next, here, line => line = here + 1

namespace Regions

/-- A rule that a directive names. -/
structure Occurrence where
  offset : Nat
  /-- What the directive does with the rule. -/
  action : Action
  /-- The identifier of the rule, or `all`. -/
  rule : String

/-- The directives among some comments, with their offsets. -/
def directivesIn (comments : List (Nat × String)) : List (Nat × Directive) :=
  comments.filterMap fun comment =>
    match Directive.ofComment comment.2 with
    | .ok (some directive) => some (comment.1, directive)
    | _ => none

/-- The directives of a tree, with their offsets. -/
def directives (tree : Tree) : List (Nat × Directive) := directivesIn (comments tree)

/-- The rules that some directives name, in order and with repetitions. -/
def occurrences (directives : List (Nat × Directive)) : List Occurrence :=
  directives.flatMap fun entry => entry.2.rules.map (Occurrence.mk entry.1 entry.2.action)

/-- Counts how often a word is switched off and not on again. -/
def tally (word : String) (action : Action) (depth : Nat) (rule : String) : Nat :=
  if rule = word then
    match action with
    | .disable => depth + 1
    | .enable => depth - 1
    | .disableLine _ => depth
  else depth

/-- How deep a word is switched off after some directives. -/
def depth (word : String) (directives : List Directive) : Nat :=
  directives.foldl (fun depth directive => directive.rules.foldl (tally word directive.action) depth) 0

/-- An offset is on the line that a scope names for a comment. -/
def OnLine (lines : Lines) (scope : LineScope) (comment offset : Nat) : Prop :=
  ∃ line start stop, scope.Names (lines.position comment).line line ∧ lines.start? line = some start ∧
    lines.stop? line = some stop ∧ start ≤ offset ∧ offset ≤ stop

/-! ## What one occurrence does -/

/-- What an occurrence does with what is open and with the regions that are settled. -/
inductive Step (lines : Lines) (occurrence : Occurrence) (opened : List (String × Position)) (settled : List Region) :
    List (String × Position) → List Region → Prop where
  | disable : occurrence.action = .disable →
      Step lines occurrence opened settled ((occurrence.rule, lines.position occurrence.offset) :: opened) settled
  | enable {pre post : List (String × Position)} {start : Position} : occurrence.action = .enable →
      opened = pre ++ (occurrence.rule, start) :: post → (∀ entry ∈ pre, entry.1 ≠ occurrence.rule) →
      Step lines occurrence opened settled (pre ++ post)
        (settled ++ [⟨occurrence.rule, start, lines.position occurrence.offset⟩])
  | spare : occurrence.action = .enable → (∀ entry ∈ opened, entry.1 ≠ occurrence.rule) →
      Step lines occurrence opened settled opened settled
  | line {scope : LineScope} {line start stop : Nat} : occurrence.action = .disableLine scope →
      scope.Names (lines.position occurrence.offset).line line → lines.start? line = some start →
      lines.stop? line = some stop →
      Step lines occurrence opened settled opened
        (settled ++ [⟨occurrence.rule, lines.position start, lines.position stop⟩])
  | noLine {scope : LineScope} : occurrence.action = .disableLine scope →
      (∀ line, scope.Names (lines.position occurrence.offset).line line → lines.start? line = none) →
      Step lines occurrence opened settled opened settled

/-- The scan after an occurrence. -/
def Scan.next (lines : Lines) (scan : Scan) (occurrence : Occurrence) : Scan :=
  applyTo lines (lines.position occurrence.offset) occurrence.action scan occurrence.rule

variable {lines : Lines} {line start here : Nat} {occurrence : Occurrence} {rule word : String} {scan : Scan}
  {scope : LineScope} {stop : Position}

section

variable (h : lines.start? line = some start)

include h

lemma start?_pos : 1 ≤ line := by
  rw [Lines.start?, Option.ite_none_left_eq_some] at h
  omega

lemma le_count : line ≤ lines.count := by
  have hpos := start?_pos h
  rw [Lines.start?, Option.ite_none_left_eq_some] at h
  have := (List.getElem?_eq_some_iff.1 h.2).1
  rw [Lines.count]
  omega

lemma lineOf?_eq_some_iff : lineOf? lines here scope = some line ↔ scope.Names here line := by
  have hpos := start?_pos h
  have hcount := le_count h
  cases scope with
  | previous =>
    simp only [lineOf?, Option.ite_none_right_eq_some, Option.some.injEq, LineScope.Names]
    omega
  | this => simp [lineOf?, LineScope.Names, eq_comm]
  | next =>
    simp only [lineOf?, Option.ite_none_right_eq_some, Option.some.injEq, LineScope.Names]
    omega

end

lemma lineRegion?_eq_some {a b : Position} (h : lineRegion? lines here scope = some (a, b)) :
    ∃ line start stop, scope.Names here line ∧ lines.start? line = some start ∧ lines.stop? line = some stop ∧
      a = lines.position start ∧ b = lines.position stop := by
  simp only [lineRegion?, Option.bind_eq_bind, Option.bind_eq_some_iff, Option.pure_def, Option.some.injEq,
    Prod.mk.injEq] at h
  obtain ⟨line, hline, start, hstart, stop, hstop, rfl, rfl⟩ := h
  exact ⟨line, start, stop, (lineOf?_eq_some_iff hstart).1 hline, hstart, hstop, rfl, rfl⟩

lemma lineRegion?_eq_none (h : lineRegion? lines here scope = none) (hnames : scope.Names here line) :
    lines.start? line = none := by
  cases hstart : lines.start? line with
  | none => rfl
  | some start =>
    exfalso
    obtain ⟨stop, hstop⟩ := Lines.isSome_stop? hstart
    simp [lineRegion?, (lineOf?_eq_some_iff hstart).2 hnames, hstart, hstop] at h

lemma add_eq {start : Position} (found : Regions) (h : start.offset ≤ stop.offset) :
    found.add rule start stop = ⟨found.regions ++ [⟨rule, start, stop⟩], found.warnings⟩ := by
  rw [add, if_neg (by omega)]

lemma exists_of_find? {opened : List (String × Position)} {entry : String × Position}
    (h : (opened.find? fun entry => entry.1 == rule) = some entry) :
    ∃ pre post, opened = pre ++ (rule, entry.2) :: post ∧ (∀ other ∈ pre, other.1 ≠ rule) ∧
      (opened.eraseP fun entry => entry.1 == rule) = pre ++ post := by
  obtain ⟨hrule, pre, post, rfl, hpre⟩ := List.find?_eq_some_iff_append.1 h
  obtain rfl : entry.1 = rule := by simpa using hrule
  have hpre : ∀ other ∈ pre, other.1 ≠ entry.1 := by simpa using hpre
  refine ⟨pre, post, rfl, hpre, ?_⟩
  rw [List.eraseP_append_right _ (by simpa using hpre), List.eraseP_cons_of_pos (by simp)]

/-- What an occurrence does, if nothing was opened behind it. -/
lemma step_next (h : ∀ entry ∈ scan.opened, entry.2.offset ≤ (lines.position occurrence.offset).offset) :
    Step lines occurrence scan.opened scan.found.regions (scan.next lines occurrence).opened
      (scan.next lines occurrence).found.regions := by
  rw [Scan.next, applyTo.eq_def]
  cases haction : occurrence.action with
  | disable => exact .disable haction
  | enable =>
    simp only
    split
    next entry hentry =>
      obtain ⟨pre, post, hopened, hpre, herase⟩ := exists_of_find? hentry
      rw [add_eq _ (h entry (List.mem_of_find?_eq_some hentry)), herase]
      exact .enable haction hopened hpre
    next hnone => exact .spare haction (by simpa using hnone)
  | disableLine scope =>
    simp only
    split
    next start stop hline =>
      obtain ⟨line, first, last, hnames, hfirst, hlast, rfl, rfl⟩ := lineRegion?_eq_some hline
      obtain ⟨other, hother, hle, hsize⟩ := Lines.exists_start_of_stop? hlast
      rw [hfirst, Option.some.injEq] at hother
      subst hother
      rw [add_eq _ (by rw [Lines.offset_position, Lines.offset_position]; omega)]
      exact .line haction hnames hfirst hlast
    next hnone => exact .noLine haction fun line => lineRegion?_eq_none hnone

/-! ## Reading all comments -/

/-- What is met in reading comments: one that is no directive after all, or a rule that a directive names. -/
inductive Event where
  /-- A comment that begins like a directive. -/
  | malformed (offset : Nat) (problem : DirectiveProblem)
  | names (occurrence : Occurrence)

namespace Event

/-- Where the comment begins. -/
def offset : Event → Nat
  | .malformed offset _ => offset
  | .names occurrence => occurrence.offset

/-- The occurrence of a rule, if it is one. -/
def occurrence? : Event → Option Occurrence
  | .malformed _ _ => none
  | .names occurrence => some occurrence

/-- What is met in a comment. -/
def ofComment (comment : Nat × String) : List Event :=
  match Directive.ofComment comment.2 with
  | .ok (some directive) => directive.rules.map fun rule => .names ⟨comment.1, directive.action, rule⟩
  | .ok none => []
  | .error problem => [.malformed comment.1 problem]

lemma offset_of_mem_ofComment {comment : Nat × String} {event : Event} (h : event ∈ ofComment comment) :
    event.offset = comment.1 := by
  rw [ofComment] at h
  split at h
  · obtain ⟨rule, -, rfl⟩ := List.mem_map.1 h
    rfl
  · simp at h
  · rw [List.mem_singleton.1 h]
    rfl

end Event

/-- The scan after an event. -/
def Scan.meet (lines : Lines) (scan : Scan) : Event → Scan
  | .malformed offset problem => { scan with found := scan.found.warn (lines.position offset) (.directive problem) }
  | .names occurrence => scan.next lines occurrence

/-- What is met in some comments. -/
def events (comments : List (Nat × String)) : List Event := comments.flatMap Event.ofComment

lemma readComment_eq (scan : Scan) (comment : Nat × String) :
    readComment lines scan comment = (Event.ofComment comment).foldl (Scan.meet lines) scan := by
  rw [readComment, Event.ofComment]
  cases Directive.ofComment comment.2 with
  | error problem => rfl
  | ok directive? =>
    cases directive? with
    | none => rfl
    | some directive => simp only [List.foldl_map]; rfl

lemma foldl_readComment (comments : List (Nat × String)) (scan : Scan) :
    comments.foldl (readComment lines) scan = (events comments).foldl (Scan.meet lines) scan := by
  rw [events, List.foldl_flatMap]
  exact congrArg (comments.foldl · scan) (funext fun scan => funext fun comment => readComment_eq scan comment)

lemma filterMap_events (comments : List (Nat × String)) :
    (events comments).filterMap Event.occurrence? = occurrences (directivesIn comments) := by
  induction comments with
  | nil => rfl
  | cons comment comments ih =>
    rw [events, List.flatMap_cons, ← events, List.filterMap_append, ih, Event.ofComment]
    cases hdirective : Directive.ofComment comment.2 with
    | error problem => simp [directivesIn, hdirective, Event.occurrence?]
    | ok directive? =>
      cases directive? with
      | none => simp [directivesIn, hdirective]
      | some directive => simp [directivesIn, hdirective, occurrences, Event.occurrence?, Function.comp_def]

lemma pairwise_events {comments : List (Nat × String)} (h : comments.Pairwise fun a b => a.1 ≤ b.1) :
    (events comments).Pairwise fun a b => a.offset ≤ b.offset := by
  rw [events, List.pairwise_flatMap]
  refine ⟨fun comment _ => ?_, h.imp fun {a b} hab event hevent other hother => ?_⟩
  · refine List.pairwise_of_forall_mem_list fun event hevent other hother => ?_
    rw [Event.offset_of_mem_ofComment hevent, Event.offset_of_mem_ofComment hother]
  · rw [Event.offset_of_mem_ofComment hevent, Event.offset_of_mem_ofComment hother]
    exact hab

section

variable (comments : List (Nat × String)) (hsorted : comments.Pairwise fun a b => a.1 ≤ b.1)

include hsorted

/-- What holds at first and is kept by every event holds once all comments are read. Comments are read in the order of
their offsets. -/
theorem meet_induction (motive : List Event → Scan → Prop) (init : motive [] ⟨[], ⟨[], []⟩⟩)
    (step : ∀ seen scan event, (∃ comment ∈ comments, comment.1 = event.offset) →
      (∀ other ∈ seen, other.offset ≤ event.offset) → motive seen scan →
      motive (seen ++ [event]) (scan.meet lines event)) :
    motive (events comments) (comments.foldl (readComment lines) ⟨[], ⟨[], []⟩⟩) := by
  have hfrom : ∀ event ∈ events comments, ∃ comment ∈ comments, comment.1 = event.offset := by
    intro event hevent
    obtain ⟨comment, hcomment, hevent⟩ := List.mem_flatMap.1 hevent
    exact ⟨comment, hcomment, (Event.offset_of_mem_ofComment hevent).symm⟩
  have hordered := pairwise_events hsorted
  rw [foldl_readComment]
  generalize events comments = row at hfrom hordered
  induction row using List.reverseRecOn with
  | nil => exact init
  | append_singleton seen event ih =>
    rw [List.foldl_concat]
    rw [List.pairwise_append] at hordered
    exact step seen _ event (hfrom event (by simp)) (fun other hother => hordered.2.2 other hother event (by simp))
      (ih (fun other hother => hfrom other (by simp [hother])) hordered.1)

/-- What has nothing to do with warnings and is kept by every occurrence holds once all comments are read. -/
theorem scan_induction (motive : List Occurrence → Scan → Prop) (init : motive [] ⟨[], ⟨[], []⟩⟩)
    (warn : ∀ row scan position problem, motive row scan →
      motive row { scan with found := scan.found.warn position problem })
    (step : ∀ row scan occurrence, (∃ comment ∈ comments, comment.1 = occurrence.offset) →
      (∀ other ∈ row, other.offset ≤ occurrence.offset) → motive row scan →
      motive (row ++ [occurrence]) (scan.next lines occurrence)) :
    motive (occurrences (directivesIn comments)) (comments.foldl (readComment lines) ⟨[], ⟨[], []⟩⟩) := by
  rw [← filterMap_events]
  refine meet_induction comments hsorted (fun seen scan => motive (seen.filterMap Event.occurrence?) scan) init ?_
  intro seen scan event hcomment hbefore h
  rw [List.filterMap_append]
  cases event with
  | malformed offset problem =>
    rw [List.filterMap_cons_none rfl, List.filterMap_nil, List.append_nil]
    exact warn _ scan _ _ h
  | names occurrence =>
    refine step _ scan occurrence hcomment (fun other hother => ?_) h
    obtain ⟨event, hevent, hother⟩ := List.mem_filterMap.1 hother
    cases event with
    | malformed offset problem => simp [Event.occurrence?] at hother
    | names first =>
      obtain rfl := Option.some.inj hother
      exact hbefore _ hevent

end

/-! ## What an offset is covered by -/

/-- How often a word is open. -/
def openCount (word : String) (opened : List (String × Position)) : Nat :=
  opened.countP fun entry => entry.1 == word

/-- One of the regions of a word contains an offset. -/
def Settles (word : String) (offset : Nat) (settled : List Region) : Prop :=
  ∃ region ∈ settled, region.rule = word ∧ region.contains offset = true

/-- A word is switched off at an offset if all that is open is closed behind it. -/
def Reaches (word : String) (offset : Nat) (opened : List (String × Position)) (settled : List Region) : Prop :=
  (∃ entry ∈ opened, entry.1 = word ∧ entry.2.offset ≤ offset) ∨ Settles word offset settled

/-- An occurrence switches a word off on a line that an offset is on. -/
def Occurrence.Covers (lines : Lines) (word : String) (offset : Nat) (occurrence : Occurrence) : Prop :=
  occurrence.rule = word ∧ ∃ scope, occurrence.action = .disableLine scope ∧
    OnLine lines scope occurrence.offset offset

section Step

variable {occurrence : Occurrence} {opened opened' : List (String × Position)} {settled settled' : List Region}
  {word : String} {offset : Nat}

lemma settles_append (region : Region) :
    Settles word offset (settled ++ [region]) ↔
      Settles word offset settled ∨ region.rule = word ∧ region.contains offset = true := by
  simp only [Settles, List.mem_append, List.mem_singleton]
  constructor
  · rintro ⟨other, hother | rfl, h⟩
    · exact Or.inl ⟨other, hother, h⟩
    · exact Or.inr h
  · rintro (⟨other, hother, h⟩ | h)
    · exact ⟨other, Or.inl hother, h⟩
    · exact ⟨region, Or.inr rfl, h⟩

lemma openCount_eq_zero (h : ∀ entry ∈ opened, entry.1 ≠ word) : openCount word opened = 0 := by
  rw [openCount, List.countP_eq_zero]
  simpa using h

lemma Step.mem_opened (h : Step lines occurrence opened settled opened' settled') {entry : String × Position}
    (hentry : entry ∈ opened') :
    entry ∈ opened ∨ entry = (occurrence.rule, lines.position occurrence.offset) := by
  cases h with
  | disable => exact (List.mem_cons.1 hentry).symm
  | @enable pre post start _ hopened =>
    subst hopened
    simp only [List.mem_append, List.mem_cons] at hentry ⊢
    tauto
  | _ => exact Or.inl hentry

/-- What is open is counted. -/
lemma Step.openCount_eq (h : Step lines occurrence opened settled opened' settled') :
    openCount word opened' = tally word occurrence.action (openCount word opened) occurrence.rule := by
  rw [tally.eq_def]
  cases h with
  | disable haction =>
    simp only [haction, openCount, List.countP_cons, beq_iff_eq]
    split <;> rfl
  | @enable pre post start haction hopened hpre =>
    subst hopened
    simp only [haction, openCount, List.countP_append, List.countP_cons, beq_iff_eq]
    split
    next hrule =>
      have hnone := openCount_eq_zero (hrule ▸ hpre)
      rw [openCount] at hnone
      omega
    next => rfl
  | spare haction hnone =>
    simp only [haction]
    split
    next hrule => rw [openCount_eq_zero (hrule ▸ hnone)]
    next => rfl
  | line haction => simp [haction]
  | noLine haction => simp [haction]

lemma contains_iff {region : Region} :
    region.contains offset = true ↔ region.start.offset ≤ offset ∧ offset ≤ region.stop.offset := by
  simp [Region.contains]

lemma contains_line {rule : String} {start stop : Nat} (hstop : stop ≤ lines.size) (hstart : start ≤ stop) :
    (Region.mk rule (lines.position start) (lines.position stop)).contains offset = true ↔
      start ≤ offset ∧ offset ≤ stop := by
  rw [contains_iff, Lines.offset_position_of_le hstop, Lines.offset_position_of_le (hstart.trans hstop)]

variable (h : Step lines occurrence opened settled opened' settled')

include h

lemma Step.lines_iff {scope : LineScope} (haction : occurrence.action = .disableLine scope) :
    opened' = opened ∧
      (Settles word offset settled' ↔ Settles word offset settled ∨ occurrence.Covers lines word offset) := by
  cases h with
  | disable h => simp [h] at haction
  | enable h => simp [h] at haction
  | spare h => simp [h] at haction
  | @line scope' line start stop h hnames hstart hstop =>
    obtain ⟨other, hother, hle, hsize⟩ := Lines.exists_start_of_stop? hstop
    obtain rfl : start = other := by simpa [hstart] using hother
    refine ⟨rfl, ?_⟩
    rw [settles_append, contains_line hsize hle, Occurrence.Covers]
    refine or_congr_right (and_congr_right fun _ => ⟨fun hin => ?_, ?_⟩)
    · exact ⟨scope', h, line, start, stop, hnames, hstart, hstop, hin⟩
    · rintro ⟨scope'', h'', line', start', stop', hnames', hstart', hstop', hin⟩
      obtain rfl : scope' = scope'' := by simpa [h] using h''
      obtain rfl : line = line' := by
        cases scope' <;> simp only [LineScope.Names] at hnames hnames' <;> omega
      obtain rfl : start = start' := by simpa [hstart] using hstart'
      obtain rfl : stop = stop' := by simpa [hstop] using hstop'
      exact hin
  | @noLine scope' h hnone =>
    refine ⟨rfl, ?_⟩
    rw [or_iff_left]
    rintro ⟨-, scope'', h'', line, start, -, hnames, hstart, -⟩
    obtain rfl : scope' = scope'' := by simpa [h] using h''
    simp [hnone line hnames] at hstart

/-- Before an offset nothing but a directive for one line settles it. -/
lemma Step.settles_iff (hbefore : occurrence.offset < offset) :
    Settles word offset settled' ↔ Settles word offset settled ∨ occurrence.Covers lines word offset := by
  cases haction : occurrence.action with
  | disableLine scope => exact (h.lines_iff haction).2
  | disable =>
    have hnot : ¬ occurrence.Covers lines word offset := by simp [Occurrence.Covers, haction]
    rw [or_iff_left hnot]
    cases h <;> simp_all
  | enable =>
    have hnot : ¬ occurrence.Covers lines word offset := by simp [Occurrence.Covers, haction]
    rw [or_iff_left hnot]
    cases h with
    | @enable pre post start h hopened hpre =>
      rw [settles_append, or_iff_left]
      rintro ⟨-, hcontains⟩
      -- the region ends where the comment begins
      have hstop := (contains_iff.1 hcontains).2
      rw [Lines.offset_position] at hstop
      omega
    | _ => simp_all

/-- At or behind an offset, what is open stays so or is closed behind it. What is opened there counts only if it
begins at the offset itself. -/
lemma Step.reaches_iff (hbehind : offset ≤ occurrence.offset) (hsize : occurrence.offset ≤ lines.size) :
    Reaches word offset opened' settled' ↔ Reaches word offset opened settled ∨
      occurrence.rule = word ∧ occurrence.action = .disable ∧ occurrence.offset = offset ∨
      occurrence.Covers lines word offset := by
  cases haction : occurrence.action with
  | disableLine scope =>
    obtain ⟨rfl, hsettles⟩ : _ ∧ (Settles word offset settled' ↔ _) := h.lines_iff haction
    simp [Reaches, hsettles, or_assoc]
  | disable =>
    have hnot : ¬ occurrence.Covers lines word offset := by simp [Occurrence.Covers, haction]
    cases h with
    | disable _ =>
      simp only [Reaches, List.mem_cons, exists_eq_or_imp, Lines.offset_position_of_le hsize, hnot, or_false, true_and]
      have hat : occurrence.offset ≤ offset ↔ occurrence.offset = offset := by omega
      rw [hat, or_assoc, or_comm]
    | _ => simp_all
  | enable =>
    have hnot : ¬ occurrence.Covers lines word offset := by simp [Occurrence.Covers, haction]
    have hnew : ¬ (occurrence.rule = word ∧ Action.enable = .disable ∧ occurrence.offset = offset) := by simp
    rw [or_iff_left hnot, or_iff_left hnew]
    cases h with
    | @enable pre post start h hopened hpre =>
      subst hopened
      have hcontains : (Region.mk occurrence.rule start (lines.position occurrence.offset)).contains offset = true ↔
          start.offset ≤ offset := by
        rw [contains_iff, Lines.offset_position_of_le hsize, and_iff_left hbehind]
      simp only [Reaches, settles_append, hcontains, List.mem_append, List.mem_cons]
      constructor
      · rintro (⟨entry, hentry | hentry, hword⟩ | hsettles | hclosed)
        · exact Or.inl ⟨entry, Or.inl hentry, hword⟩
        · exact Or.inl ⟨entry, Or.inr (Or.inr hentry), hword⟩
        · exact Or.inr hsettles
        · exact Or.inl ⟨_, Or.inr (Or.inl rfl), hclosed⟩
      · rintro (⟨entry, hentry | rfl | hentry, hword⟩ | hsettles)
        · exact Or.inl ⟨entry, Or.inl hentry, hword⟩
        · exact Or.inr (Or.inr hword)
        · exact Or.inl ⟨entry, Or.inr hentry, hword⟩
        · exact Or.inr (Or.inl hsettles)
    | _ => simp_all

end Step

/-! ## The whole reading -/

/-- How deep a word is switched off after some occurrences. -/
def level (word : String) (row : List Occurrence) : Nat :=
  row.foldl (fun depth occurrence => tally word occurrence.action depth occurrence.rule) 0

/-- What the occurrences that were read say about a word at an offset: how deep the word is switched off before the
offset, whether it is switched off there, and whether it is switched off on the line. -/
def Told (lines : Lines) (word : String) (offset : Nat) (row : List Occurrence) : Prop :=
  0 < level word (row.filter fun occurrence => occurrence.offset < offset) ∨
    ∃ occurrence ∈ row, occurrence.rule = word ∧ occurrence.action = .disable ∧ occurrence.offset = offset ∨
      occurrence.Covers lines word offset

/-- How a scan stands to what was read. -/
structure Keeps (lines : Lines) (word : String) (offset : Nat) (row : List Occurrence) (scan : Scan) : Prop where
  /-- What is open was opened where a comment begins. -/
  opened : ∀ entry ∈ scan.opened, ∃ occurrence ∈ row, entry.2 = lines.position occurrence.offset
  /-- Before the offset, what is open is counted. -/
  count : (∀ occurrence ∈ row, occurrence.offset < offset) →
    openCount word scan.opened = level word row ∧
      (Settles word offset scan.found.regions ↔ ∃ occurrence ∈ row, occurrence.Covers lines word offset)
  /-- The offset is reached as what was read tells. -/
  reaches : Reaches word offset scan.opened scan.found.regions ↔ Told lines word offset row

namespace Keeps

variable {word : String} {offset : Nat} {row : List Occurrence} {scan : Scan}

lemma init : Keeps lines word offset [] ⟨[], ⟨[], []⟩⟩ where
  opened := by simp
  count := by simp [openCount, level, Settles]
  reaches := by simp [Reaches, Settles, Told, level]

lemma opened_le (h : Keeps lines word offset row scan) {bound : Nat}
    (hrow : ∀ occurrence ∈ row, occurrence.offset ≤ bound) {entry : String × Position}
    (hentry : entry ∈ scan.opened) : entry.2.offset ≤ (lines.position bound).offset := by
  obtain ⟨occurrence, hoccurrence, hentry⟩ := h.opened entry hentry
  have := hrow occurrence hoccurrence
  rw [hentry, Lines.offset_position, Lines.offset_position]
  omega

/-- Before the offset the count says what is reached. -/
lemma reaches_of_before (h : ∀ entry ∈ scan.opened, entry.2.offset ≤ offset)
    (hcount : openCount word scan.opened = level word row)
    (hsettles : Settles word offset scan.found.regions ↔ ∃ occurrence ∈ row, occurrence.Covers lines word offset)
    (hbefore : ∀ occurrence ∈ row, occurrence.offset < offset) :
    Reaches word offset scan.opened scan.found.regions ↔ Told lines word offset row := by
  have hopen : (∃ entry ∈ scan.opened, entry.1 = word ∧ entry.2.offset ≤ offset) ↔ 0 < openCount word scan.opened := by
    rw [openCount, List.countP_pos_iff]
    refine exists_congr fun entry => and_congr_right fun hentry => ?_
    simp [h entry hentry]
  have hfilter : (row.filter fun occurrence => occurrence.offset < offset) = row := by simpa using hbefore
  rw [Reaches, hopen, hsettles, hcount, Told, hfilter]
  refine or_congr_right (exists_congr fun occurrence => and_congr_right fun hoccurrence => ?_)
  rw [or_iff_right]
  rintro ⟨-, -, hoffset⟩
  exact absurd (hbefore occurrence hoccurrence) (by omega)

lemma step (h : Keeps lines word offset row scan) {occurrence : Occurrence}
    (hsize : occurrence.offset ≤ lines.size) (hrow : ∀ other ∈ row, other.offset ≤ occurrence.offset) :
    Keeps lines word offset (row ++ [occurrence]) (scan.next lines occurrence) := by
  have hstep := step_next fun entry hentry => h.opened_le hrow hentry
  have hopened : ∀ entry ∈ (scan.next lines occurrence).opened,
      ∃ other ∈ row ++ [occurrence], entry.2 = lines.position other.offset := by
    intro entry hentry
    rcases hstep.mem_opened hentry with hentry | rfl
    · obtain ⟨other, hother, hentry⟩ := h.opened entry hentry
      exact ⟨other, by simp [hother], hentry⟩
    · exact ⟨occurrence, by simp, rfl⟩
  have hcount : (∀ other ∈ row ++ [occurrence], other.offset < offset) →
      openCount word (scan.next lines occurrence).opened = level word (row ++ [occurrence]) ∧
        (Settles word offset (scan.next lines occurrence).found.regions ↔
          ∃ other ∈ row ++ [occurrence], other.Covers lines word offset) := by
    intro hbefore
    obtain ⟨hcount, hsettles⟩ := h.count fun other hother => hbefore other (by simp [hother])
    refine ⟨by rw [hstep.openCount_eq, hcount, level, level, List.foldl_concat], ?_⟩
    rw [hstep.settles_iff (hbefore occurrence (by simp)), hsettles]
    simp [or_and_right, exists_or]
  refine ⟨hopened, hcount, ?_⟩
  rcases lt_or_ge occurrence.offset offset with hbefore | hbehind
  · have hbefore' : ∀ other ∈ row ++ [occurrence], other.offset < offset := by
      intro other hother
      rcases List.mem_append.1 hother with hother | hother
      · exact (hrow other hother).trans_lt hbefore
      · rwa [List.mem_singleton.1 hother]
    refine reaches_of_before (fun entry hentry => ?_) (hcount hbefore').1 (hcount hbefore').2 hbefore'
    obtain ⟨other, hother, hentry⟩ := hopened entry hentry
    have := hbefore' other hother
    rw [hentry, Lines.offset_position]
    omega
  · -- the occurrence is behind the offset and counts only for itself
    have hfilter : ((row ++ [occurrence]).filter fun other => other.offset < offset) =
        row.filter fun other => other.offset < offset := by
      simp [List.filter_append, hbehind]
    rw [hstep.reaches_iff hbehind hsize, h.reaches, Told, Told, hfilter, or_assoc]
    simp [or_and_right, exists_or]

end Keeps

/-! ## What is covered in the end -/

lemma foldl_add {left : List Region} (h : ∀ region ∈ left, region.start.offset ≤ region.stop.offset)
    (found : Regions) :
    left.foldl (fun found region => found.add region.rule region.start region.stop) found =
      ⟨found.regions ++ left, found.warnings⟩ := by
  induction left generalizing found with
  | nil => simp
  | cons region left ih =>
    rw [List.foldl_cons, ih fun other hother => h other (by simp [hother]), add_eq _ (h region (by simp)),
      List.append_assoc]
    rfl

lemma close_eq (h : ∀ entry ∈ scan.opened, entry.2.offset ≤ stop.offset) :
    close stop scan = ⟨scan.found.regions ++
      (scan.opened.map fun entry => (⟨entry.1, entry.2, stop⟩ : Region)).mergeSort Region.atOrBefore,
      scan.found.warnings⟩ := by
  rw [close, foldl_add]
  intro region hregion
  rw [List.mem_mergeSort, List.mem_map] at hregion
  obtain ⟨entry, hentry, rfl⟩ := hregion
  exact h entry hentry

lemma mem_regions_close (h : ∀ entry ∈ scan.opened, entry.2.offset ≤ stop.offset) {region : Region} :
    region ∈ (close stop scan).regions ↔
      region ∈ scan.found.regions ∨ ∃ entry ∈ scan.opened, ⟨entry.1, entry.2, stop⟩ = region := by
  rw [close_eq h, List.mem_append, List.mem_mergeSort, List.mem_map]

lemma covers_iff_exists_mem {regions : List Region} {offset : Nat} :
    Region.covers regions offset = true ↔ ∃ region ∈ regions, region.contains offset = true := by
  rw [Region.covers, List.any_eq_true]

/-- What is open at the end is closed there. -/
lemma exists_mem_close_iff {offset : Nat} (hoffset : offset ≤ lines.size)
    (h : ∀ entry ∈ scan.opened, entry.2.offset ≤ lines.size) :
    (∃ region ∈ (close (lines.position lines.size) scan).regions,
        region.rule = word ∧ region.contains offset = true) ↔
      Reaches word offset scan.opened scan.found.regions := by
  have hsize : (lines.position lines.size).offset = lines.size := Lines.offset_position_of_le le_rfl
  have hclose : ∀ {region}, region ∈ (close (lines.position lines.size) scan).regions ↔ _ :=
    mem_regions_close (by rwa [hsize])
  simp only [hclose]
  constructor
  · rintro ⟨region, hregion | ⟨entry, hentry, rfl⟩, hword, hcontains⟩
    · exact Or.inr ⟨region, hregion, hword, hcontains⟩
    · exact Or.inl ⟨entry, hentry, hword, (contains_iff.1 hcontains).1⟩
  · rintro (⟨entry, hentry, hword, hle⟩ | ⟨region, hregion, hword, hcontains⟩)
    · exact ⟨_, Or.inr ⟨entry, hentry, rfl⟩, hword, contains_iff.2 ⟨hle, by rwa [hsize]⟩⟩
    · exact ⟨region, Or.inl hregion, hword, hcontains⟩

/-- A rule is switched off where its name or `all` is told to be. -/
theorem covers_forRule_iff (source : Source) (id : String) {offset : Nat} (hoffset : offset ≤ source.tree.width) :
    Region.covers ((resolve source).forRule id) offset = true ↔
      ∃ word ∈ [id, Region.everyRule],
        Told source.lines word offset (occurrences (directives source.tree)) := by
  have hkeeps (word : String) : Keeps source.lines word offset (occurrences (directives source.tree))
      ((comments source.tree).foldl (readComment source.lines) ⟨[], ⟨[], []⟩⟩) := by
    refine scan_induction (comments source.tree) (pairwise_comments source.tree) (Keeps source.lines word offset) .init
      (fun row scan position problem h => ⟨h.opened, h.count, h.reaches⟩) ?_
    rintro row scan occurrence ⟨comment, hcomment, hat⟩ hrow h
    refine h.step ?_ hrow
    rw [← hat, source.size_lines]
    exact le_width_of_mem_comments hcomment
  have hopened : ∀ entry ∈ ((comments source.tree).foldl (readComment source.lines) ⟨[], ⟨[], []⟩⟩).opened,
      entry.2.offset ≤ source.lines.size := by
    intro entry hentry
    obtain ⟨occurrence, -, hat⟩ := (hkeeps id).opened entry hentry
    rw [hat, Lines.offset_position]
    omega
  rw [← source.size_lines] at hoffset
  simp only [← (hkeeps _).reaches, ← exists_mem_close_iff hoffset hopened]
  rw [covers_iff_exists_mem, forRule, resolve]
  simp only [List.mem_filter, List.mem_mergeSort, Region.appliesTo, Bool.or_eq_true, beq_iff_eq]
  constructor
  · rintro ⟨region, ⟨hregion, hword⟩, hcontains⟩
    exact ⟨region.rule, by simpa using hword, region, hregion, rfl, hcontains⟩
  · rintro ⟨word, hword, region, hregion, rfl, hcontains⟩
    exact ⟨region, ⟨hregion, by simpa using hword⟩, hcontains⟩

lemma mem_occurrences {directives : List (Nat × Directive)} :
    occurrence ∈ occurrences directives ↔ ∃ entry ∈ directives, occurrence.offset = entry.1 ∧
      occurrence.action = entry.2.action ∧ occurrence.rule ∈ entry.2.rules := by
  obtain ⟨offset, action, rule⟩ := occurrence
  simp only [occurrences, List.mem_flatMap, List.mem_map, Occurrence.mk.injEq]
  refine exists_congr fun entry => and_congr_right fun _ => ⟨?_, ?_⟩
  · rintro ⟨rule, hrule, rfl, rfl, rfl⟩
    exact ⟨rfl, rfl, hrule⟩
  · rintro ⟨rfl, rfl, hrule⟩
    exact ⟨rule, hrule, rfl, rfl, rfl⟩

lemma filter_occurrences (directives : List (Nat × Directive)) (offset : Nat) :
    (occurrences directives).filter (fun occurrence => occurrence.offset < offset) =
      occurrences (directives.filter fun entry => entry.1 < offset) := by
  induction directives with
  | nil => rfl
  | cons entry directives ih =>
    rw [occurrences, List.flatMap_cons, ← occurrences, List.filter_append, ih, List.filter_map]
    by_cases h : entry.1 < offset
    · simp [h, occurrences, Function.comp_def]
    · simp [h, occurrences, Function.comp_def]

lemma level_occurrences (word : String) (directives : List (Nat × Directive)) :
    level word (occurrences directives) = depth word (directives.map Prod.snd) := by
  rw [level, depth, occurrences, List.foldl_flatMap, List.foldl_map]
  simp only [List.foldl_map]

/-- What the directives of a tree tell about a word. -/
lemma told_iff {directives : List (Nat × Directive)} {offset : Nat} :
    Told lines word offset (occurrences directives) ↔
      0 < depth word ((directives.filter fun entry => entry.1 < offset).map Prod.snd) ∨
        (∃ entry ∈ directives, entry.1 = offset ∧ entry.2.action = .disable ∧ word ∈ entry.2.rules) ∨
          ∃ entry ∈ directives, ∃ scope, entry.2.action = .disableLine scope ∧ word ∈ entry.2.rules ∧
            OnLine lines scope entry.1 offset := by
  rw [Told, filter_occurrences, level_occurrences, ← exists_or]
  refine or_congr_right ⟨?_, ?_⟩
  · rintro ⟨occurrence, hoccurrence, h⟩
    obtain ⟨entry, hentry, hoffset, haction, hrule⟩ := mem_occurrences.1 hoccurrence
    rcases h with ⟨rfl, hdisable, rfl⟩ | ⟨rfl, scope, hscope, hline⟩
    · exact ⟨entry, Or.inl ⟨hentry, hoffset.symm, haction ▸ hdisable, hrule⟩⟩
    · exact ⟨entry, Or.inr ⟨hentry, scope, haction ▸ hscope, hrule, hoffset ▸ hline⟩⟩
  · rintro ⟨entry, ⟨hentry, rfl, hdisable, hrule⟩ | ⟨hentry, scope, hscope, hrule, hline⟩⟩
    · exact ⟨⟨entry.1, entry.2.action, word⟩, mem_occurrences.2 ⟨entry, hentry, rfl, rfl, hrule⟩,
        Or.inl ⟨rfl, hdisable, rfl⟩⟩
    · exact ⟨⟨entry.1, entry.2.action, word⟩, mem_occurrences.2 ⟨entry, hentry, rfl, rfl, hrule⟩,
        Or.inr ⟨rfl, scope, hscope, hline⟩⟩

/-- Suppression is nesting depth. A rule is switched off at an offset where no directive begins exactly if its name or
`all` is switched off more often than on before the offset, or a directive switches it off for the line. -/
theorem covers_iff_depth (text : String) (id : String) (offset : Nat) (hoffset : offset ≤ text.utf8ByteSize)
    (hapart : ∀ entry ∈ directives (parse text), entry.1 ≠ offset) :
    Region.covers ((resolve (Source.ofText text)).forRule id) offset = true ↔
      (∃ word ∈ [id, Region.everyRule],
          0 < depth word (((directives (parse text)).filter fun entry => entry.1 < offset).map Prod.snd)) ∨
        ∃ entry ∈ directives (parse text), ∃ scope, entry.2.action = .disableLine scope ∧
          (id ∈ entry.2.rules ∨ Region.everyRule ∈ entry.2.rules) ∧
          OnLine (Source.ofText text).lines scope entry.1 offset := by
  have hwidth : offset ≤ (Source.ofText text).tree.width := by
    rwa [Tree.width_eq_utf8ByteSize, Source.ofText, text_parse]
  have hnone (word : String) : ¬ ∃ entry ∈ directives (parse text), entry.1 = offset ∧
      entry.2.action = .disable ∧ word ∈ entry.2.rules :=
    fun ⟨entry, hentry, hat, _⟩ => hapart entry hentry hat
  rw [covers_forRule_iff _ _ hwidth, Source.ofText]
  simp only [told_iff, hnone, false_or, List.mem_cons, List.not_mem_nil, or_false, exists_eq_left, or_and_right,
    exists_or, and_or_left]

/-- A rule that is switched off twice and on once is still off, and so it is on the line behind a directive for the
next line. -/
theorem covers_iff_depth_twice :
    let text := "// kestrel:disable a a\n// kestrel:enable a\nx\n// kestrel:enable a\n// kestrel:disable:next all\ny\n"
    let off := fun offset => Region.covers ((resolve (Source.ofText text)).forRule "a") offset = true
    (∀ offset ∈ [43, 93], offset ≤ text.utf8ByteSize ∧ ∀ entry ∈ directives (parse text), entry.1 ≠ offset) ∧
      off 43 ∧ off 93 := by
  intro text off
  have hdirectives : directives (parse text) = [(0, ⟨.disable, ["a", "a"]⟩), (23, ⟨.enable, ["a"]⟩),
      (45, ⟨.enable, ["a"]⟩), (65, ⟨.disableLine .next, ["all"]⟩)] := by decide +kernel
  have hlines : (Source.ofText text).lines = Lines.ofText text := congrArg Lines.ofText (text_parse text)
  have hplace : ∀ offset ∈ [43, 93],
      offset ≤ text.utf8ByteSize ∧ ∀ entry ∈ directives (parse text), entry.1 ≠ offset := by
    rw [hdirectives]
    decide +kernel
  have hat (offset : Nat) (h : offset ∈ [43, 93]) :=
    covers_iff_depth text "a" offset (hplace offset h).1 (hplace offset h).2
  rw [hdirectives, hlines] at hat
  refine ⟨hplace, (hat 43 (by simp)).2 (Or.inl ⟨"a", by simp, by decide⟩), (hat 93 (by simp)).2 (Or.inr ?_)⟩
  have hnames : LineScope.Names .next ((Lines.ofText text).position 65).line 6 := by
    show 6 = _
    decide +kernel
  exact ⟨(65, ⟨.disableLine .next, ["all"]⟩), by simp, .next, rfl, Or.inr (by decide), 6, 93, 94, hnames,
    by decide +kernel, by decide +kernel, by simp⟩

end Regions

end SwiftTidy

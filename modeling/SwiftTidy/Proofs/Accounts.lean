import SwiftTidy.Proofs.Nesting

/-!
# What becomes of directives

A rule that a directive names gives a region or a warning, or it closes a region that was opened before. Nothing else
can happen to it, and nothing happens to it twice. The numbers of regions and of warnings can thus be told from the
directives alone (`Regions.resolve_accounts`). No region ends before it begins, and warnings come in the order of the
text.
-/

namespace SwiftTidy

instance LineScope.decidableNames : ∀ (scope : LineScope) (here line : Nat), Decidable (scope.Names here line)
  | .previous, here, line => inferInstanceAs (Decidable (line + 1 = here))
  | .this, here, line => inferInstanceAs (Decidable (line = here))
  | .next, here, line => inferInstanceAs (Decidable (line = here + 1))

lemma Lines.position_eq_of_offset_eq {lines : Lines} {a b : Nat}
    (h : (lines.position a).offset = (lines.position b).offset) : lines.position a = lines.position b := by
  rw [offset_position, offset_position] at h
  simp only [position, h]

/-- A region begins at a position of a text, does not end before it begins, and ends within the text. -/
structure Region.Within (lines : Lines) (region : Region) : Prop where
  begins : ∃ offset, region.start = lines.position offset
  ordered : region.start.offset ≤ region.stop.offset
  ends : region.stop.offset ≤ lines.size

namespace Regions

/-- Whether an occurrence switches a rule off until it is switched on again. -/
def Occurrence.opens (occurrence : Occurrence) : Bool := decide (occurrence.action = .disable)

/-- Whether an occurrence switches a rule off on a line that is there. -/
def Occurrence.hasLine (lines : Lines) (occurrence : Occurrence) : Bool :=
  match occurrence.action with
  | .disableLine scope =>
    (List.range' 1 lines.count).any fun line => scope.Names (lines.position occurrence.offset).line line
  | _ => false

/-- Whether an occurrence switches a rule off on a line that is not there. -/
def Occurrence.lacksLine (lines : Lines) (occurrence : Occurrence) : Bool :=
  match occurrence.action with
  | .disableLine _ => !occurrence.hasLine lines
  | _ => false

/-- Whether an occurrence switches a rule on that is not switched off by what comes before it. -/
def Occurrence.isSpare (before : List Occurrence) (occurrence : Occurrence) : Bool :=
  decide (occurrence.action = .enable ∧ level occurrence.rule before = 0)

/-- The number of occurrences that switch a rule on where it is not switched off. -/
def spareCount (row : List Occurrence) : Nat :=
  row.zipIdx.countP fun entry => entry.1.isSpare (row.take entry.2)

/-- Whether a comment begins like a directive and is none. -/
def isMalformed (comment : Nat × String) : Bool :=
  match Directive.ofComment comment.2 with
  | .error _ => true
  | .ok _ => false

variable {lines : Lines}

/-! ## One occurrence -/

lemma exists_start {line : Nat} (hpos : 1 ≤ line) (hcount : line ≤ lines.count) :
    ∃ start, lines.start? line = some start := by
  have hlt : line - 1 < lines.starts.length := by
    rw [Lines.count] at hcount
    omega
  exact ⟨lines.starts[line - 1], by rw [Lines.start?, if_neg (by omega), List.getElem?_eq_getElem hlt]⟩

variable {before : List Occurrence} {occurrence : Occurrence} {opened opened' : List (String × Position)}
  {region : Region} {settled settled' : List Region}

lemma hasLine_iff {scope : LineScope} (haction : occurrence.action = .disableLine scope) :
    occurrence.hasLine lines = true ↔
      ∃ line start, scope.Names (lines.position occurrence.offset).line line ∧ lines.start? line = some start := by
  simp only [Occurrence.hasLine, haction, List.any_eq_true, List.mem_range'_1, decide_eq_true_eq]
  constructor
  · rintro ⟨line, ⟨hpos, hcount⟩, hnames⟩
    have hcount : line ≤ lines.count := by omega
    obtain ⟨start, hstart⟩ := exists_start hpos hcount
    exact ⟨line, start, hnames, hstart⟩
  · rintro ⟨line, start, hnames, hstart⟩
    have := le_count hstart
    exact ⟨line, ⟨start?_pos hstart, by omega⟩, hnames⟩

/-- What is open and what is settled, taken together, grows by one with each rule that is switched off. -/
lemma Step.length_add (h : Step lines occurrence opened settled opened' settled') :
    opened'.length + settled'.length =
      opened.length + settled.length + occurrence.opens.toNat + (occurrence.hasLine lines).toNat := by
  cases h with
  | disable haction => simp [Occurrence.opens, Occurrence.hasLine, haction]; omega
  | enable haction hopened => simp [Occurrence.opens, Occurrence.hasLine, haction, hopened]; omega
  | spare haction => simp [Occurrence.opens, Occurrence.hasLine, haction]
  | line haction hnames hstart =>
    have hline : occurrence.hasLine lines = true := (hasLine_iff haction).2 ⟨_, _, hnames, hstart⟩
    simp [Occurrence.opens, haction, hline]
    omega
  | noLine haction hnone =>
    have hline : occurrence.hasLine lines = false := by
      rw [Bool.eq_false_iff, Ne, hasLine_iff haction]
      rintro ⟨line, start, hnames, hstart⟩
      simp [hnone line hnames] at hstart
    simp [Occurrence.opens, haction, hline]

/-- The regions that an occurrence settles are within the text, if what is open begins at or before it. -/
lemma Step.within (h : Step lines occurrence opened settled opened' settled')
    (hopened : ∀ entry ∈ opened, ∃ offset ≤ occurrence.offset, entry.2 = lines.position offset)
    (hregion : region ∈ settled') : region ∈ settled ∨ region.Within lines := by
  cases h with
  | @enable pre post start haction heq =>
    rcases List.mem_append.1 hregion with hregion | hregion
    · exact Or.inl hregion
    · obtain ⟨offset, hoffset, rfl⟩ := hopened (occurrence.rule, start) (by simp [heq])
      rw [List.mem_singleton.1 hregion]
      refine Or.inr ⟨⟨offset, rfl⟩, ?_, ?_⟩ <;> simp only [Lines.offset_position] <;> omega
  | @line scope line start stop haction hnames hstart hstop =>
    rcases List.mem_append.1 hregion with hregion | hregion
    · exact Or.inl hregion
    · rw [List.mem_singleton.1 hregion]
      obtain ⟨other, hother, hle, hsize⟩ := Lines.exists_start_of_stop? hstop
      rw [hstart, Option.some.injEq] at hother
      refine Or.inr ⟨⟨start, rfl⟩, ?_, ?_⟩ <;> simp only [Lines.offset_position] <;> omega
  | _ => exact Or.inl hregion

/-- What an occurrence is warned about. -/
def Occurrence.problem? (lines : Lines) (before : List Occurrence) (occurrence : Occurrence) : Option RegionProblem :=
  match occurrence.action with
  | .disable => none
  | .enable => if occurrence.isSpare before then some (.notDisabled occurrence.rule) else none
  | .disableLine scope => if occurrence.hasLine lines then none else some (.noLine scope occurrence.rule)

lemma length_problem? (before : List Occurrence) (occurrence : Occurrence) :
    (occurrence.problem? lines before).toList.length =
      (occurrence.isSpare before).toNat + (occurrence.lacksLine lines).toNat := by
  rw [Occurrence.problem?.eq_def]
  cases haction : occurrence.action with
  | disable => simp [Occurrence.isSpare, Occurrence.lacksLine, haction]
  | enable => by_cases hspare : occurrence.isSpare before = true <;> simp [Occurrence.lacksLine, haction, hspare]
  | disableLine scope =>
    by_cases hline : occurrence.hasLine lines = true <;>
      simp [Occurrence.isSpare, Occurrence.lacksLine, haction, hline]

lemma problem?_ne_inverted {problem : RegionProblem} (h : occurrence.problem? lines before = some problem)
    (rule : String) : problem ≠ .inverted rule := by
  rintro rfl
  rw [Occurrence.problem?.eq_def] at h
  split at h <;> simp at h

/-- The warnings that an occurrence gives, if what is open was counted and nothing was opened behind it. -/
lemma warnings_next {scan : Scan}
    (hopened : ∀ entry ∈ scan.opened, entry.2.offset ≤ (lines.position occurrence.offset).offset)
    (hlevel : openCount occurrence.rule scan.opened = level occurrence.rule before) :
    (scan.next lines occurrence).found.warnings = scan.found.warnings ++
      (occurrence.problem? lines before).toList.map (RegionWarning.mk (lines.position occurrence.offset)) := by
  rw [Scan.next, applyTo.eq_def, Occurrence.problem?.eq_def]
  cases haction : occurrence.action with
  | disable => simp
  | enable =>
    have hspare : occurrence.isSpare before = true ↔ ∀ entry ∈ scan.opened, entry.1 ≠ occurrence.rule := by
      simp [Occurrence.isSpare, haction, ← hlevel, openCount, List.countP_eq_zero]
    simp only
    split
    next entry hentry =>
      have hrule : entry.1 = occurrence.rule := by simpa using List.find?_some hentry
      have hmem := List.mem_of_find?_eq_some hentry
      rw [add_eq _ (hopened entry hmem), if_neg fun h => hspare.1 h entry hmem hrule]
      simp
    next hnone =>
      rw [if_pos (hspare.2 (by simpa using hnone))]
      rfl
  | disableLine scope =>
    simp only
    split
    next start stop hline =>
      obtain ⟨line, first, last, hnames, hfirst, hlast, rfl, rfl⟩ := lineRegion?_eq_some hline
      obtain ⟨other, hother, hle, hsize⟩ := Lines.exists_start_of_stop? hlast
      rw [hfirst, Option.some.injEq] at hother
      rw [add_eq _ (by rw [Lines.offset_position, Lines.offset_position]; omega),
        if_pos ((hasLine_iff haction).2 ⟨line, first, hnames, hfirst⟩)]
      simp
    next hnone =>
      rw [if_neg]
      · rfl
      · rw [hasLine_iff haction]
        rintro ⟨line, start, hnames, hstart⟩
        simp [lineRegion?_eq_none hnone hnames] at hstart

/-! ## The whole reading -/

lemma countP_concat {α : Type} (p : α → Bool) (row : List α) (x : α) :
    (row ++ [x]).countP p = row.countP p + (p x).toNat := by
  cases h : p x <;> simp [h]

lemma spareCount_concat (row : List Occurrence) (occurrence : Occurrence) :
    spareCount (row ++ [occurrence]) = spareCount row + (occurrence.isSpare row).toNat := by
  have hrow : row.zipIdx.countP (fun entry => entry.1.isSpare ((row ++ [occurrence]).take entry.2)) = spareCount row := by
    refine List.countP_congr fun entry hentry => ?_
    have hlt := List.snd_lt_of_mem_zipIdx hentry
    rw [List.take_append_of_le_length (by omega)]
  rw [spareCount, List.zipIdx_append, List.zipIdx_singleton, countP_concat, hrow]
  simp

/-- Whether an event is a comment that is no directive. -/
def Event.isMalformed : Event → Bool
  | .malformed _ _ => true
  | .names _ => false

/-- How a scan stands to the events that were met. -/
structure Balanced (lines : Lines) (seen : List Event) (scan : Scan) : Prop where
  opened : ∀ entry ∈ scan.opened, ∃ event ∈ seen, entry.2 = lines.position event.offset
  count : ∀ word, openCount word scan.opened = level word (seen.filterMap Event.occurrence?)
  regions : scan.opened.length + scan.found.regions.length =
    (seen.filterMap Event.occurrence?).countP Occurrence.opens +
      (seen.filterMap Event.occurrence?).countP (Occurrence.hasLine lines)
  within : ∀ region ∈ scan.found.regions, region.Within lines
  warnings : scan.found.warnings.length = seen.countP Event.isMalformed +
    spareCount (seen.filterMap Event.occurrence?) +
      (seen.filterMap Event.occurrence?).countP (Occurrence.lacksLine lines)
  placed : ∀ warning ∈ scan.found.warnings, (∃ event ∈ seen, warning.position = lines.position event.offset) ∧
    ∀ rule, warning.problem ≠ .inverted rule
  sorted : scan.found.warnings.Pairwise fun a b => a.position.offset ≤ b.position.offset

namespace Balanced

variable {seen : List Event} {scan : Scan}

lemma init : Balanced lines [] ⟨[], ⟨[], []⟩⟩ := by
  constructor <;> simp [openCount, level, spareCount]

variable {entry : String × Position} (h : Balanced lines seen scan)

include h

lemma opened_le {bound : Nat} (hseen : ∀ event ∈ seen, event.offset ≤ bound) (hentry : entry ∈ scan.opened) :
    ∃ offset ≤ bound, entry.2 = lines.position offset := by
  obtain ⟨event, hevent, hentry⟩ := h.opened entry hentry
  exact ⟨event.offset, hseen event hevent, hentry⟩

lemma within_close (hentry : entry ∈ scan.opened) :
    (Region.mk entry.1 entry.2 (lines.position lines.size)).Within lines := by
  obtain ⟨event, -, hentry⟩ := h.opened entry hentry
  refine ⟨⟨event.offset, hentry⟩, ?_, ?_⟩ <;> simp only [hentry, Lines.offset_position] <;> omega

lemma sorted_append {offset : Nat} (hseen : ∀ event ∈ seen, event.offset ≤ offset) (problem? : Option RegionProblem) :
    (scan.found.warnings ++ problem?.toList.map (RegionWarning.mk (lines.position offset))).Pairwise
      fun a b => a.position.offset ≤ b.position.offset := by
  refine List.pairwise_append.2 ⟨h.sorted, by cases problem? <;> simp, fun warning hwarning new hnew => ?_⟩
  obtain ⟨problem, -, rfl⟩ := List.mem_map.1 hnew
  obtain ⟨⟨event, hevent, hposition⟩, -⟩ := h.placed warning hwarning
  have := hseen event hevent
  simp only [hposition, Lines.offset_position]
  omega

lemma placed_append (event : Event) (problem? : Option RegionProblem)
    (hproblem : ∀ problem ∈ problem?, ∀ rule, problem ≠ .inverted rule) {warning : RegionWarning}
    (hwarning : warning ∈ scan.found.warnings ++ problem?.toList.map (RegionWarning.mk (lines.position event.offset))) :
    (∃ other ∈ seen ++ [event], warning.position = lines.position other.offset) ∧
      ∀ rule, warning.problem ≠ .inverted rule := by
  rcases List.mem_append.1 hwarning with hwarning | hwarning
  · obtain ⟨⟨other, hother, hposition⟩, hinverted⟩ := h.placed warning hwarning
    exact ⟨⟨other, by simp [hother], hposition⟩, hinverted⟩
  · obtain ⟨problem, hmem, rfl⟩ := List.mem_map.1 hwarning
    exact ⟨⟨event, by simp, rfl⟩, hproblem problem (by simpa using hmem)⟩

lemma malformed (offset : Nat) (problem : DirectiveProblem) (hseen : ∀ event ∈ seen, event.offset ≤ offset) :
    Balanced lines (seen ++ [.malformed offset problem]) (scan.meet lines (.malformed offset problem)) := by
  have hrow : (seen ++ [Event.malformed offset problem]).filterMap Event.occurrence? =
      seen.filterMap Event.occurrence? := by simp [Event.occurrence?]
  refine ⟨fun entry hentry => ?_, ?_, ?_, h.within, ?_, fun warning hwarning => ?_, ?_⟩
  · obtain ⟨event, hevent, hentry⟩ := h.opened entry hentry
    exact ⟨event, by simp [hevent], hentry⟩
  · rw [hrow]
    exact h.count
  · rw [hrow]
    exact h.regions
  · rw [hrow, countP_concat]
    simp only [Scan.meet, warn, List.length_append, h.warnings, Event.isMalformed, Bool.toNat_true, List.length_singleton]
    omega
  · exact h.placed_append (.malformed offset problem) (some (.directive problem)) (by simp) hwarning
  · exact h.sorted_append hseen (some (.directive problem))

lemma names (occurrence : Occurrence) (hseen : ∀ event ∈ seen, event.offset ≤ occurrence.offset) :
    Balanced lines (seen ++ [.names occurrence]) (scan.next lines occurrence) := by
  have hbefore : ∀ entry ∈ scan.opened, ∃ offset ≤ occurrence.offset, entry.2 = lines.position offset :=
    fun entry hentry => h.opened_le hseen hentry
  have hopened : ∀ entry ∈ scan.opened, entry.2.offset ≤ (lines.position occurrence.offset).offset := by
    intro entry hentry
    obtain ⟨offset, hoffset, hentry⟩ := hbefore entry hentry
    rw [hentry, Lines.offset_position, Lines.offset_position]
    omega
  have hstep := step_next hopened
  have hwarnings := warnings_next hopened (h.count occurrence.rule)
  have hrow : (seen ++ [Event.names occurrence]).filterMap Event.occurrence? =
      seen.filterMap Event.occurrence? ++ [occurrence] := by simp [Event.occurrence?]
  refine ⟨fun entry hentry => ?_, fun word => ?_, ?_, fun region hregion => ?_, ?_, fun warning hwarning => ?_, ?_⟩
  · rcases hstep.mem_opened hentry with hentry | rfl
    · obtain ⟨event, hevent, hentry⟩ := h.opened entry hentry
      exact ⟨event, by simp [hevent], hentry⟩
    · exact ⟨.names occurrence, by simp, rfl⟩
  · rw [hrow, hstep.openCount_eq, h.count, level, level, List.foldl_concat]
  · rw [hrow, countP_concat, countP_concat, hstep.length_add, h.regions]
    omega
  · exact (hstep.within hbefore hregion).elim (h.within region) id
  · rw [hrow, countP_concat, countP_concat, spareCount_concat, hwarnings, List.length_append, List.length_map,
      length_problem?, h.warnings, Event.isMalformed, Bool.toNat_false]
    omega
  · rw [hwarnings] at hwarning
    exact h.placed_append (.names occurrence) _ (fun problem hproblem => problem?_ne_inverted hproblem) hwarning
  · rw [hwarnings]
    exact h.sorted_append hseen _

end Balanced

lemma balanced_scan (source : Source) :
    Balanced source.lines (events (comments source.tree))
      ((comments source.tree).foldl (readComment source.lines) ⟨[], ⟨[], []⟩⟩) := by
  refine meet_induction (comments source.tree) (pairwise_comments source.tree) (Balanced source.lines) .init ?_
  intro seen scan event _ hseen h
  cases event with
  | malformed offset problem => exact h.malformed offset problem hseen
  | names occurrence => exact h.names occurrence hseen

lemma countP_events (comments : List (Nat × String)) :
    (events comments).countP Event.isMalformed = comments.countP isMalformed := by
  induction comments with
  | nil => rfl
  | cons comment comments ih =>
    rw [events, List.flatMap_cons, ← events, List.countP_append, ih, List.countP_cons, Event.ofComment, isMalformed]
    cases Directive.ofComment comment.2 with
    | error problem => simp [Event.isMalformed]; omega
    | ok directive? => cases directive? <;> simp [Event.isMalformed, List.countP_map, Function.comp_def]

/-- The scan of all comments of a source. -/
def scanOf (source : Source) : Scan := (comments source.tree).foldl (readComment source.lines) ⟨[], ⟨[], []⟩⟩

/-- The region of what is still open at the end of a source. -/
def leftOpen (source : Source) (entry : String × Position) : Region :=
  ⟨entry.1, entry.2, source.lines.position source.lines.size⟩

lemma resolve_eq (source : Source) :
    resolve source = ⟨((scanOf source).found.regions ++
      ((scanOf source).opened.map (leftOpen source)).mergeSort Region.atOrBefore).mergeSort Region.atOrBefore,
      (scanOf source).found.warnings⟩ := by
  have hopened : ∀ entry ∈ (scanOf source).opened,
      entry.2.offset ≤ (source.lines.position source.lines.size).offset :=
    fun entry hentry => ((balanced_scan source).within_close hentry).ordered
  rw [resolve, ← scanOf, close_eq hopened]
  rfl

lemma within_of_mem_resolve {source : Source} (h : region ∈ (resolve source).regions) : region.Within source.lines := by
  have hscan : Balanced source.lines _ (scanOf source) := balanced_scan source
  rw [resolve_eq, List.mem_mergeSort, List.mem_append, List.mem_mergeSort, List.mem_map] at h
  rcases h with h | ⟨entry, hentry, rfl⟩
  · exact hscan.within region h
  · exact hscan.within_close hentry

/-- Directives are accounted for. There is a region for each rule that is switched off, unless it is switched off on a
line that is not there, and a warning for each comment that is no directive after all, each rule that is switched on
where it is not switched off and each line that is not there. Regions are in order and end within the text, so none is
warned about, and warnings are in the order of the text. -/
theorem resolve_accounts (text : String) :
    let source := Source.ofText text
    let row := occurrences (directives source.tree)
    (resolve source).regions.length = row.countP Occurrence.opens + row.countP (Occurrence.hasLine source.lines) ∧
    (resolve source).warnings.length = (comments source.tree).countP isMalformed + spareCount row +
      row.countP (Occurrence.lacksLine source.lines) ∧
    (∀ region ∈ (resolve source).regions,
      region.start.offset ≤ region.stop.offset ∧ region.stop.offset ≤ text.utf8ByteSize) ∧
    (∀ warning ∈ (resolve source).warnings, ∀ rule, warning.problem ≠ .inverted rule) ∧
    (resolve source).warnings.Pairwise fun a b =>
      a.position.offset < b.position.offset ∨ a.position = b.position := by
  intro source row
  have h : Balanced source.lines _ (scanOf source) := balanced_scan source
  have hsize : source.lines.size = text.utf8ByteSize := by
    rw [source.size_lines, Tree.width_eq_utf8ByteSize]
    exact congrArg String.utf8ByteSize (text_parse text)
  have hrow : (events (comments source.tree)).filterMap Event.occurrence? = row := filterMap_events _
  have hwarnings : (resolve source).warnings = (scanOf source).found.warnings := by rw [resolve_eq]
  refine ⟨?_, ?_, fun region hregion => ?_, fun warning hwarning => ?_, ?_⟩
  · rw [resolve_eq]
    simp only [List.length_mergeSort, List.length_append, List.length_map]
    rw [← hrow, ← h.regions]
    omega
  · rw [hwarnings, ← countP_events, ← hrow]
    exact h.warnings
  · have hwithin := within_of_mem_resolve hregion
    exact ⟨hwithin.ordered, hsize ▸ hwithin.ends⟩
  · exact (h.placed warning (hwarnings ▸ hwarning)).2
  · -- of two warnings at one offset, the positions are the same
    rw [hwarnings]
    refine h.sorted.imp_of_mem fun {a b} ha hb hab => ?_
    obtain ⟨⟨event, -, hevent⟩, -⟩ := h.placed a ha
    obtain ⟨⟨other, -, hother⟩, -⟩ := h.placed b hb
    rcases hab.lt_or_eq with hlt | heq
    · exact Or.inl hlt
    · rw [hevent, hother] at heq ⊢
      exact Or.inr (Lines.position_eq_of_offset_eq heq)

end Regions

end SwiftTidy

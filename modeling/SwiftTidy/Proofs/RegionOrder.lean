import SwiftTidy.Proofs.Accounts
import Mathlib.Data.List.Sort

/-!
# The order of regions

What is open may as well be kept in a table that has a stack for each rule. At the end of a text such a table is gone
through in an order of its own, which nobody knows. This makes no difference (`Regions.resolve_canonical`): the regions
that are still open are put in order before they are added to those that are settled, and two of them at the same place
in the order are the same.
-/

namespace SwiftTidy

namespace Region

variable {a b : Region} {lines : Lines}

lemma atOrBefore_iff :
    a.atOrBefore b = true ↔ a.start.offset < b.start.offset ∨ a.start.offset = b.start.offset ∧ a.rule ≤ b.rule := by
  simp only [atOrBefore, Bool.or_eq_true, Bool.and_eq_true, decide_eq_true_eq, beq_iff_eq, Bool.not_eq_true',
    decide_eq_false_iff_not, String.not_lt]

lemma atOrBefore_trans (a b c : Region) (hab : a.atOrBefore b = true) (hbc : b.atOrBefore c = true) :
    a.atOrBefore c = true := by
  rw [atOrBefore_iff] at *
  rcases hab with hab | ⟨hab, hrule⟩
  · exact Or.inl (by omega)
  · rcases hbc with hbc | ⟨hbc, hrule'⟩
    · exact Or.inl (by omega)
    · exact Or.inr ⟨hab.trans hbc, String.le_trans hrule hrule'⟩

lemma atOrBefore_total (a b : Region) : (a.atOrBefore b || b.atOrBefore a) = true := by
  rw [Bool.or_eq_true, atOrBefore_iff, atOrBefore_iff]
  rcases lt_trichotomy a.start.offset b.start.offset with h | h | h
  · exact Or.inl (Or.inl h)
  · exact (String.le_total a.rule b.rule).imp (fun hrule => Or.inr ⟨h, hrule⟩) fun hrule => Or.inr ⟨h.symm, hrule⟩
  · exact Or.inr (Or.inl h)

lemma Within.start_eq (ha : a.Within lines) (hb : b.Within lines) (h : a.start.offset = b.start.offset) :
    a.start = b.start := by
  obtain ⟨offset, hstart⟩ := ha.begins
  obtain ⟨other, hother⟩ := hb.begins
  rw [hstart, hother] at h ⊢
  exact Lines.position_eq_of_offset_eq h

lemma atOrBefore_antisymm (ha : a.Within lines) (hb : b.Within lines) (hstop : a.stop = b.stop)
    (hab : a.atOrBefore b = true) (hba : b.atOrBefore a = true) : a = b := by
  rw [atOrBefore_iff] at hab hba
  have hoffset : a.start.offset = b.start.offset := by omega
  have hrule : a.rule = b.rule := String.le_antisymm (by simpa [hoffset] using hab) (by simpa [hoffset] using hba)
  have hstart := ha.start_eq hb hoffset
  cases a
  cases b
  simp_all

end Region

namespace Regions

/-! ## Reading with a table -/

/-- For each rule, where the regions begin that are open, the one opened last first. -/
abbrev Stacks := Std.HashMap String (List Position)

/-- Where the reading of directives stands, if what is open is kept in a table. -/
structure TableScan where
  opened : Stacks
  found : Regions

namespace TableScan

/-- Applies an action at a position to one rule. -/
def applyTo (lines : Lines) (position : Position) (action : Action) (scan : TableScan) (rule : String) : TableScan :=
  match action with
  | .disable => { scan with opened := scan.opened.insert rule (position :: scan.opened.getD rule []) }
  | .enable =>
    match scan.opened.getD rule [] with
    | start :: rest => ⟨scan.opened.insert rule rest, scan.found.add rule start position⟩
    | [] => { scan with found := scan.found.warn position (.notDisabled rule) }
  | .disableLine scope =>
    match lineRegion? lines position.line scope with
    | some (start, stop) => { scan with found := scan.found.add rule start stop }
    | none => { scan with found := scan.found.warn position (.noLine scope rule) }

/-- Reads the comment at an offset. -/
def readComment (lines : Lines) (scan : TableScan) (comment : Nat × String) : TableScan :=
  let position := lines.position comment.1
  match Directive.ofComment comment.2 with
  | .ok (some directive) => directive.rules.foldl (applyTo lines position directive.action) scan
  | .ok none => scan
  | .error problem => { scan with found := scan.found.warn position (.directive problem) }

/-- Closes what is still open at a position. The stacks are taken from the table by `iterate`, and the beginnings from
each stack in the order in which they came there. -/
def close (iterate : Stacks → List (String × List Position)) (stop : Position) (scan : TableScan) : Regions :=
  let left := ((iterate scan.opened).flatMap fun entry =>
    entry.2.reverse.map fun start => (⟨entry.1, start, stop⟩ : Region)).mergeSort Region.atOrBefore
  left.foldl (fun found region => found.add region.rule region.start region.stop) scan.found

end TableScan

/-- What the directives of a source come to, if what is open is kept in a table that is gone through by `iterate`. -/
def resolveBy (iterate : Stacks → List (String × List Position)) (source : Source) : Regions :=
  let lines := source.lines
  let scan := (comments source.tree).foldl (TableScan.readComment lines) ⟨∅, ⟨[], []⟩⟩
  let found := scan.close iterate (lines.position lines.size)
  { found with regions := found.regions.mergeSort Region.atOrBefore }

/-! ## Tables and stacks -/

/-- Where the regions of a rule begin that are open. -/
def beginnings (rule : String) (opened : List (String × Position)) : List Position :=
  (opened.filter fun entry => entry.1 == rule).map Prod.snd

/-- A table holds what is open. -/
structure Tabulates (table : TableScan) (scan : Scan) : Prop where
  opened : ∀ rule, table.opened.getD rule [] = beginnings rule scan.opened
  found : table.found = scan.found

lemma beginnings_cons (rule other : String) (position : Position) (opened : List (String × Position)) :
    beginnings rule ((other, position) :: opened) =
      if other = rule then position :: beginnings rule opened else beginnings rule opened := by
  by_cases h : other = rule <;> simp [beginnings, h]

lemma beginnings_append (rule : String) (front back : List (String × Position)) :
    beginnings rule (front ++ back) = beginnings rule front ++ beginnings rule back := by
  simp [beginnings]

variable {opened : List (String × Position)} {rows : List (String × List Position)} {rule : String}

lemma beginnings_eq_nil : beginnings rule opened = [] ↔ ∀ entry ∈ opened, entry.1 ≠ rule := by
  simp [beginnings, List.filter_eq_nil_iff]

variable {table : TableScan} {scan : Scan} {lines : Lines}

/-- What a rule does to a table is what it does to all that is open. -/
lemma Tabulates.applyTo (h : Tabulates table scan) (position : Position) (action : Action) (rule : String) :
    Tabulates (table.applyTo lines position action rule) (Regions.applyTo lines position action scan rule) := by
  rw [TableScan.applyTo.eq_def, Regions.applyTo.eq_def]
  cases action with
  | disable =>
    refine ⟨fun other => ?_, h.found⟩
    simp only [Std.HashMap.getD_insert, beginnings_cons, h.opened, beq_iff_eq]
    split
    next hrule => rw [hrule]
    next => rfl
  | enable =>
    simp only [h.opened]
    cases hfind : scan.opened.find? fun entry => entry.1 == rule with
    | none =>
      have hnil : beginnings rule scan.opened = [] := beginnings_eq_nil.2 (by simpa using hfind)
      simp only [hnil]
      exact ⟨h.opened, by rw [h.found]⟩
    | some entry =>
      obtain ⟨pre, post, hopened, hpre, herase⟩ := exists_of_find? hfind
      have hrow (other : String) : beginnings other scan.opened =
          beginnings other pre ++ if rule = other then entry.2 :: beginnings other post else beginnings other post := by
        rw [hopened, beginnings_append, beginnings_cons]
      have hhead : beginnings rule scan.opened = entry.2 :: beginnings rule post := by
        simp [hrow, beginnings_eq_nil.2 hpre]
      simp only [hhead]
      refine ⟨fun other => ?_, by rw [h.found]⟩
      rw [Std.HashMap.getD_insert, h.opened, herase, beginnings_append, hrow]
      by_cases hrule : rule = other
      · subst hrule
        simp [beginnings_eq_nil.2 hpre]
      · simp [hrule]
  | disableLine scope =>
    simp only [h.found]
    cases lineRegion? lines position.line scope with
    | none => exact ⟨h.opened, rfl⟩
    | some region => exact ⟨h.opened, rfl⟩

lemma Tabulates.readComment (h : Tabulates table scan) (comment : Nat × String) :
    Tabulates (table.readComment lines comment) (Regions.readComment lines scan comment) := by
  rw [TableScan.readComment, Regions.readComment]
  cases Directive.ofComment comment.2 with
  | error problem => exact ⟨h.opened, by rw [h.found]⟩
  | ok directive? =>
    cases directive? with
    | none => exact h
    | some directive => exact List.foldl_rel h fun rule _ _ _ h => h.applyTo _ _ rule

lemma tabulates_scanOf (source : Source) :
    Tabulates ((comments source.tree).foldl (TableScan.readComment source.lines) ⟨∅, ⟨[], []⟩⟩) (scanOf source) :=
  List.foldl_rel ⟨by simp [beginnings], rfl⟩ fun comment _ _ _ h => h.readComment comment

/-! ## Going through a table -/

lemma perm_of_beginnings {other : List (String × Position)}
    (h : ∀ rule, (beginnings rule opened).Perm (beginnings rule other)) : opened.Perm other := by
  have hcount (rule : String) (start : Position) (row : List (String × Position)) :
      row.count (rule, start) = (beginnings rule row).count start := by
    induction row with
    | nil => rfl
    | cons entry row ih =>
      obtain ⟨first, position⟩ := entry
      rw [beginnings_cons, List.count_cons, ih]
      by_cases hrule : first = rule <;> simp [hrule, List.count_cons]
  refine List.perm_iff_count.2 fun ⟨rule, start⟩ => ?_
  rw [hcount, hcount, (h rule).count_eq]

/-- What is in a stack, with the name of its rule. -/
def unstack (entry : String × List Position) : List (String × Position) := entry.2.reverse.map (entry.1, ·)

lemma beginnings_unstack (rule : String) (entry : String × List Position) :
    beginnings rule (unstack entry) = if entry.1 = rule then entry.2.reverse else [] := by
  by_cases hrule : entry.1 = rule <;> simp [beginnings, unstack, List.filter_map, Function.comp_def, hrule]

/-- Of stacks for different rules, a rule has one at most. -/
lemma beginnings_flatMap (hdistinct : rows.Pairwise fun a b => (a.1 == b.1) = false) :
    beginnings rule (rows.flatMap unstack) =
      (((rows.find? fun entry => entry.1 == rule).map Prod.snd).getD []).reverse := by
  induction rows with
  | nil => rfl
  | cons entry rows ih =>
    rw [List.pairwise_cons] at hdistinct
    rw [List.flatMap_cons, beginnings_append, beginnings_unstack, ih hdistinct.2]
    by_cases hrule : entry.1 = rule
    · have hnone : (rows.find? fun other => other.1 == rule) = none := by
        rw [List.find?_eq_none]
        intro other hother hsame
        have hapart := hdistinct.1 other hother
        simp_all
      rw [if_pos hrule, hnone, List.find?_cons_of_pos (by simpa using hrule)]
      simp
    · rw [if_neg hrule, List.find?_cons_of_neg (by simpa using hrule)]
      rfl

/-- However a table is gone through, it gives what is open, in some order. -/
lemma Tabulates.perm (h : Tabulates table scan) (hrows : rows.Perm table.opened.toList) :
    (rows.flatMap unstack).Perm scan.opened := by
  refine (hrows.flatMap_right _).trans (perm_of_beginnings fun rule => ?_)
  have hfind : ((table.opened.toList.find? fun entry => entry.1 == rule).map Prod.snd).getD [] =
      table.opened.getD rule [] := by
    rw [Std.HashMap.getD_eq_getD_getElem?]
    congr 1
    ext stack
    simp only [Option.map_eq_some_iff, Prod.exists, exists_eq_right,
      Std.HashMap.find?_toList_eq_some_iff_getKey?_eq_some_and_getElem?_eq_some]
    refine ⟨fun ⟨_, h⟩ => h.2, fun h => ⟨rule, ?_, h⟩⟩
    exact Std.HashMap.getKey?_eq_some (Std.HashMap.mem_iff_isSome_getElem?.2 (by simp [h]))
  rw [beginnings_flatMap Std.HashMap.distinct_keys_toList, hfind, h.opened]
  exact List.reverse_perm _

/-- What is still open is the same in whatever order it is closed, as it is sorted first. -/
lemma Tabulates.close_eq (h : Tabulates table scan) {iterate : Stacks → List (String × List Position)}
    (hrows : (iterate table.opened).Perm table.opened.toList) {stop : Position}
    (hwithin : ∀ entry ∈ scan.opened, (Region.mk entry.1 entry.2 stop).Within lines) :
    table.close iterate stop = Regions.close stop scan := by
  have hleft : (iterate table.opened).flatMap (fun entry => entry.2.reverse.map (Region.mk entry.1 · stop)) =
      ((iterate table.opened).flatMap unstack).map fun entry => ⟨entry.1, entry.2, stop⟩ := by
    simp [List.map_flatMap, unstack, Function.comp_def]
  have hperm := (h.perm hrows).map fun entry => (⟨entry.1, entry.2, stop⟩ : Region)
  rw [TableScan.close, Regions.close, hleft, h.found]
  congr 1
  refine List.Perm.eq_of_pairwise ?_ (List.pairwise_mergeSort Region.atOrBefore_trans Region.atOrBefore_total _)
    (List.pairwise_mergeSort Region.atOrBefore_trans Region.atOrBefore_total _)
    ((List.mergeSort_perm _ _).trans (hperm.trans (List.mergeSort_perm _ _).symm))
  intro a b ha hb hab hba
  rw [List.mem_mergeSort, hperm.mem_iff, List.mem_map] at ha
  rw [List.mem_mergeSort, List.mem_map] at hb
  obtain ⟨entry, hentry, rfl⟩ := ha
  obtain ⟨other, hother, rfl⟩ := hb
  exact Region.atOrBefore_antisymm (hwithin entry hentry) (hwithin other hother) rfl hab hba

/-- The order of regions is canonical. They are sorted by where they begin and then by the name of the rule, and they are
the same in whatever order a table of what is open is gone through. -/
theorem resolve_canonical (source : Source) (iterate : Stacks → List (String × List Position))
    (hiterate : ∀ table : Stacks, (iterate table).Perm table.toList) :
    resolveBy iterate source = resolve source ∧
      (resolve source).regions.Pairwise fun a b =>
        a.start.offset < b.start.offset ∨ a.start = b.start ∧ a.rule ≤ b.rule := by
  constructor
  · have hscan : Balanced source.lines _ (scanOf source) := balanced_scan source
    have htable := tabulates_scanOf source
    rw [resolveBy, resolve, ← scanOf]
    rw [htable.close_eq (hiterate _) fun entry hentry => hscan.within_close hentry]
  · have hsorted : (resolve source).regions.Pairwise fun a b => a.atOrBefore b = true := by
      rw [resolve]
      exact List.pairwise_mergeSort Region.atOrBefore_trans Region.atOrBefore_total _
    refine hsorted.imp_of_mem fun {a b} ha hb hab => ?_
    rcases Region.atOrBefore_iff.1 hab with hlt | ⟨heq, hrule⟩
    · exact Or.inl hlt
    · exact Or.inr ⟨(within_of_mem_resolve ha).start_eq (within_of_mem_resolve hb) heq, hrule⟩

/-- Two regions of a rule that begin together and one for the line they begin on, with a table that is gone through
backwards. -/
theorem resolve_canonical_backwards :
    let source := Source.ofText "/* kestrel:disable b a a */ /* kestrel:disable:this a */\n"
    (∀ table : Stacks, table.toList.reverse.Perm table.toList) ∧
      resolveBy (fun table => table.toList.reverse) source = resolve source ∧
      (resolve source).regions.length = 4 := by
  intro source
  have hperm : ∀ table : Stacks, table.toList.reverse.Perm table.toList := fun table => List.reverse_perm _
  refine ⟨hperm, (resolve_canonical source _ hperm).1, ?_⟩
  have hscan : (scanOf source).found.regions.length + (scanOf source).opened.length = 4 := by decide +kernel
  simpa [resolve_eq] using hscan

end Regions

end SwiftTidy

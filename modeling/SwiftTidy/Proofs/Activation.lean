import SwiftTidy.Config.Active
import SwiftTidy.Proofs.Registration

/-!
# The rules that run

Which rules of a catalog run is said by the settings, with no regard to their order: `Wanted`, `Refuses` and `Resolves`
below speak of the entries of the table of rules as a set. Resolving a configuration does what they say, rule by rule in
the order of the catalog, and fails at the first entry that names no rule, or else at the first rule that refuses its
options (`Configuration.activeRules_resolve`).
-/

namespace SwiftTidy.Configuration

open Data

variable {configuration other : Configuration} {registry : Registry} {rule : Rule} {error : Error}

/-! ## What a configuration asks for -/

/-- No rule has two settings. -/
def Distinct (configuration : Configuration) : Prop := (configuration.rules.map Prod.fst).Nodup

/-- The rule runs: it is named and not off, or it is not named, recommended rules run, and it is not opt-in. -/
def Wanted (configuration : Configuration) (rule : Rule) : Prop :=
  (∃ setting, (rule.id, setting) ∈ configuration.rules ∧ setting.level? ≠ some .off) ∨
    rule.id ∉ configuration.rules.map Prod.fst ∧ rule.description.optIn = false ∧
      configuration.recommended? ≠ some false

/-- The rule is given options that it refuses. -/
def Refuses (configuration : Configuration) (rule : Rule) (cause : Error) : Prop :=
  ∃ setting options, (rule.id, setting) ∈ configuration.rules ∧ setting.options? = some options ∧
    rule.configure options = .error cause

/-- What a rule becomes: it gets the severity that is set for it or else keeps its own, and works as its options say if
it has any. -/
structure Resolves (configuration : Configuration) (rule : Rule) (active : ActiveRule) : Prop where
  severity_set : ∀ setting level, (rule.id, setting) ∈ configuration.rules → setting.level? = some level →
    level.severity? = some active.severity
  severity_own : (∀ setting, (rule.id, setting) ∈ configuration.rules → setting.level? = none) →
    active.severity = rule.description.severity
  options_set : ∀ setting options, (rule.id, setting) ∈ configuration.rules → setting.options? = some options →
    rule.configured options = .ok active.rule
  /-- A rule without options is what it is. -/
  options_own : (∀ setting, (rule.id, setting) ∈ configuration.rules → setting.options? = none) → active.rule = rule

/-- The identifier is the first one with a setting that no rule has. -/
def FirstUnknown (configuration : Configuration) (registry : Registry) (id : String) : Prop :=
  ∃ front setting back, configuration.rules = front ++ (id, setting) :: back ∧ id ∉ registry.ids ∧
    ∀ entry ∈ front, entry.1 ∈ registry.ids

/-- The rule is the first of the catalog that runs and refuses its options. -/
def FirstRefusal (configuration : Configuration) (registry : Registry) (rule : Rule) (cause : Error) : Prop :=
  ∃ front back, registry.rules = front ++ rule :: back ∧ configuration.Wanted rule ∧
    configuration.Refuses rule cause ∧
    ∀ before ∈ front, configuration.Wanted before → ∀ cause, ¬ configuration.Refuses before cause

/-- The two configurations differ in nothing but in what is said about rules that are off. -/
structure AgreeButOff (configuration other : Configuration) : Prop where
  /-- Both say the same about the linter. -/
  enabled : configuration.enabled? = other.enabled?
  /-- Both say the same about recommended rules. -/
  recommended : configuration.recommended? = other.recommended?
  /-- Both name the same rules, and a rule has the same setting in both or is off in both. -/
  rules : List.Forall₂ (fun entry entry' => entry.1 = entry'.1 ∧
    (entry.2 = entry'.2 ∨ entry.2.level? = some .off ∧ entry'.2.level? = some .off)) configuration.rules other.rules

/-! ## Settings are found by their identifier -/

variable {active : List ActiveRule} {id : String} {rules : List Rule} {setting : Setting} {setting? : Option Setting}

lemma Distinct.lookup_eq_some_iff (h : configuration.Distinct) :
    configuration.rules.lookup id = some setting ↔ (id, setting) ∈ configuration.rules := by
  rw [List.lookup_eq_some_iff]
  constructor
  · rintro ⟨front, back, hrules, -⟩
    simp [hrules]
  · intro hmem
    obtain ⟨front, back, hrules⟩ := List.append_of_mem hmem
    refine ⟨front, back, hrules, fun entry hentry => ?_⟩
    rw [Distinct, hrules, List.map_append, List.map_cons, List.nodup_middle, List.nodup_cons] at h
    have hne : id ≠ entry.1 := by
      rintro rfl
      exact h.1 (List.mem_append_left _ (List.mem_map.2 ⟨entry, hentry, rfl⟩))
    simpa using hne

lemma lookup_eq_none_iff : configuration.rules.lookup id = none ↔ id ∉ configuration.rules.map Prod.fst := by
  rw [List.lookup_eq_none_iff, List.mem_map]
  constructor
  · rintro hnone ⟨entry, hentry, rfl⟩
    simpa using hnone entry hentry
  · intro hid entry hentry
    have hne : id ≠ entry.1 := fun heq => hid ⟨entry, hentry, heq.symm⟩
    simpa using hne

/-- The setting of a rule, if there is one, is the only one. -/
lemma Distinct.exists_lookup (h : configuration.Distinct) (id : String) :
    (configuration.rules.lookup id = none ∧ id ∉ configuration.rules.map Prod.fst ∧
      ∀ setting, (id, setting) ∉ configuration.rules) ∨
    ∃ setting, configuration.rules.lookup id = some setting ∧ (id, setting) ∈ configuration.rules ∧
      ∀ setting', (id, setting') ∈ configuration.rules → setting' = setting := by
  cases hlookup : configuration.rules.lookup id with
  | none =>
    have hid := lookup_eq_none_iff.1 hlookup
    exact Or.inl ⟨rfl, hid, fun setting hmem => hid (List.mem_map_of_mem hmem)⟩
  | some setting =>
    refine Or.inr ⟨setting, rfl, h.lookup_eq_some_iff.1 hlookup, fun setting' hmem => ?_⟩
    rw [← h.lookup_eq_some_iff, hlookup, Option.some.injEq] at hmem
    exact hmem.symm

/-! ## One rule -/

lemma Setting.isOff_eq_false_iff : setting.isOff = false ↔ setting.level? ≠ some .off := by
  rw [Setting.isOff, beq_eq_false_iff_ne]

lemma Distinct.runs_iff (h : configuration.Distinct) (rule : Rule) :
    configuration.runs rule (configuration.rules.lookup rule.id) = true ↔ configuration.Wanted rule := by
  rcases h.exists_lookup rule.id with ⟨hlookup, hid, hnone⟩ | ⟨setting, hlookup, hmem, honly⟩
  · have hrecommended : configuration.recommended?.getD true = true ↔ configuration.recommended? ≠ some false := by
      rcases configuration.recommended? with _ | _ | _ <;> simp
    simp [runs, Wanted, hlookup, hnone, hrecommended, and_comm]
  · rw [hlookup, runs, Bool.not_eq_true', Setting.isOff_eq_false_iff, Wanted]
    constructor
    · exact fun hon => Or.inl ⟨setting, hmem, hon⟩
    · rintro (⟨setting', hmem', hon⟩ | ⟨hid, -⟩)
      · exact honly setting' hmem' ▸ hon
      · exact absurd (List.mem_map_of_mem hmem) hid

/-- A rule is not activated exactly if it refuses its options. -/
lemma Distinct.activate_eq_error_iff (h : configuration.Distinct) :
    activate rule (configuration.rules.lookup rule.id) = .error error ↔
      ∃ cause, configuration.Refuses rule cause ∧ error = (ConfigProblem.invalidOptions rule.id cause).error := by
  rcases h.exists_lookup rule.id with ⟨hlookup, -, hnone⟩ | ⟨setting, hlookup, hmem, honly⟩
  · simp [activate, Refuses, hlookup, hnone]
  · have hrefuses : ∀ cause, configuration.Refuses rule cause ↔
        ∃ options, setting.options? = some options ∧ rule.configure options = .error cause := fun cause => by
      constructor
      · rintro ⟨setting', options, hmem', hoptions, hcause⟩
        exact ⟨options, honly setting' hmem' ▸ hoptions, hcause⟩
      · rintro ⟨options, hoptions, hcause⟩
        exact ⟨setting, options, hmem, hoptions, hcause⟩
    simp only [hrefuses, hlookup, activate, Option.bind_some]
    cases hoptions : setting.options? with
    | none => simp
    | some options => cases hcause : rule.configure options <;> simp [Rule.configured, Except.map, hcause, eq_comm]

lemma activate_eq_ok_iff {active : ActiveRule} :
    activate rule setting? = .ok active ↔
      active.severity = ((setting?.bind Setting.level?).bind Level.severity?).getD rule.description.severity ∧
      (setting?.bind Setting.options? = none → active.rule = rule) ∧
      ∀ options, setting?.bind Setting.options? = some options → rule.configured options = .ok active.rule := by
  obtain ⟨rule', severity⟩ := active
  rw [activate]
  cases setting?.bind Setting.options? with
  | none => simp [eq_comm, and_comm]
  | some options => cases hrule : rule.configured options <;> simp [hrule, eq_comm, and_comm]

/-- A rule that runs is activated as the configuration says. -/
lemma Distinct.activate_eq_ok_iff (h : configuration.Distinct) (hwanted : configuration.Wanted rule)
    {active : ActiveRule} :
    activate rule (configuration.rules.lookup rule.id) = .ok active ↔ configuration.Resolves rule active := by
  rw [Configuration.activate_eq_ok_iff]
  rcases h.exists_lookup rule.id with ⟨hlookup, hid, hnone⟩ | ⟨setting, hlookup, hmem, honly⟩
  · rw [hlookup]
    constructor
    · rintro ⟨hseverity, hrule, -⟩
      exact ⟨by simp [hnone], fun _ => hseverity, by simp [hnone], fun _ => hrule rfl⟩
    · intro hresolves
      exact ⟨hresolves.severity_own (by simp [hnone]), fun _ => hresolves.options_own (by simp [hnone]), by simp⟩
  · have hon : setting.level? ≠ some .off := by
      rcases hwanted with ⟨setting', hmem', hon⟩ | ⟨hid, -⟩
      · exact honly setting' hmem' ▸ hon
      · exact absurd (List.mem_map_of_mem hmem) hid
    rw [hlookup, Option.bind_some, Option.bind_some]
    constructor
    · rintro ⟨hseverity, hrule, hoptions⟩
      refine ⟨fun setting' level hmem' hlevel => ?_, fun hnone => ?_, fun setting' options hmem' => ?_, fun hnone => ?_⟩
      · rw [honly setting' hmem'] at hlevel
        rw [hlevel, Option.bind_some] at hseverity
        rw [hlevel] at hon
        cases level <;> simp_all [Level.severity?]
      · simpa [hnone setting hmem] using hseverity
      · rw [honly setting' hmem']
        exact hoptions options
      · exact hrule (hnone setting hmem)
    · intro hresolves
      have hall : ∀ {p : Setting → Prop}, p setting →
          ∀ setting', (rule.id, setting') ∈ configuration.rules → p setting' :=
        fun hp setting' hmem' => honly setting' hmem' ▸ hp
      refine ⟨?_, fun hnone => hresolves.options_own (hall hnone),
        fun options => hresolves.options_set setting options hmem⟩
      cases hlevel : setting.level? with
      | none => exact hresolves.severity_own (hall hlevel)
      | some level => simp [hresolves.severity_set setting level hmem hlevel]

/-! ## One rule after the other -/

lemma activeAmong_cons (configuration : Configuration) (rule : Rule) (rest : List Rule) :
    configuration.activeAmong (rule :: rest) =
      if configuration.runs rule (configuration.rules.lookup rule.id) then
        match activate rule (configuration.rules.lookup rule.id) with
        | .error error => .error error
        | .ok active => (configuration.activeAmong rest).map (active :: ·)
      else configuration.activeAmong rest := by
  rw [activeAmong]
  split
  · cases activate rule (configuration.rules.lookup rule.id) with
    | error error => rfl
    | ok active => cases configuration.activeAmong rest <;> rfl
  · rfl

/-- The rules that run are activated one by one. -/
lemma forall₂_of_activeAmong (h : configuration.activeAmong rules = .ok active) :
    List.Forall₂ (fun rule one => configuration.runs rule (configuration.rules.lookup rule.id) = true ∧
        activate rule (configuration.rules.lookup rule.id) = .ok one)
      (rules.filter fun rule => configuration.runs rule (configuration.rules.lookup rule.id)) active := by
  induction rules generalizing active with
  | nil =>
    obtain rfl : [] = active := Except.ok.inj h
    exact .nil
  | cons rule rest ih =>
    rw [activeAmong_cons] at h
    rw [List.filter_cons]
    split at h
    next hruns =>
      rw [if_pos hruns]
      cases hone : activate rule (configuration.rules.lookup rule.id) with
      | error error => simp [hone] at h
      | ok one =>
        cases hrest : configuration.activeAmong rest with
        | error error => simp [hone, hrest, Except.map] at h
        | ok later =>
          obtain rfl : one :: later = active := by simpa [hone, hrest, Except.map] using h
          exact .cons ⟨hruns, hone⟩ (ih hrest)
    next hruns =>
      rw [if_neg hruns]
      exact ih h

lemma exists_activate_of_activeAmong (h : configuration.activeAmong rules = .ok active) (hrule : rule ∈ rules)
    (hruns : configuration.runs rule (configuration.rules.lookup rule.id) = true) :
    ∃ one, activate rule (configuration.rules.lookup rule.id) = .ok one := by
  have hmem : rule ∈ rules.filter fun rule => configuration.runs rule (configuration.rules.lookup rule.id) :=
    List.mem_filter.2 ⟨hrule, hruns⟩
  obtain ⟨n, hn, hget⟩ := List.mem_iff_getElem.1 hmem
  obtain ⟨hlength, hall⟩ := List.forall₂_iff_get.1 (forall₂_of_activeAmong h)
  have hone := (hall n hn (hlength ▸ hn)).2
  simp only [List.get_eq_getElem, hget] at hone
  exact ⟨_, hone⟩

/-- The first rule that runs and cannot be activated makes all of it fail. -/
lemma activeAmong_eq_error_iff :
    configuration.activeAmong rules = .error error ↔
      ∃ front rule back, rules = front ++ rule :: back ∧
        configuration.runs rule (configuration.rules.lookup rule.id) = true ∧
        activate rule (configuration.rules.lookup rule.id) = .error error ∧
        ∀ before ∈ front, configuration.runs before (configuration.rules.lookup before.id) = true →
          ∀ error, activate before (configuration.rules.lookup before.id) ≠ .error error := by
  induction rules with
  | nil => simp [activeAmong]
  | cons rule rest ih =>
    rw [activeAmong_cons]
    constructor
    · intro h
      by_cases hruns : configuration.runs rule (configuration.rules.lookup rule.id) = true
      · rw [if_pos hruns] at h
        cases hone : activate rule (configuration.rules.lookup rule.id) with
        | error cause =>
          obtain rfl : cause = error := by simpa [hone] using h
          exact ⟨[], rule, rest, rfl, hruns, hone, by simp⟩
        | ok one =>
          cases hrest : configuration.activeAmong rest with
          | ok later => simp [hone, hrest, Except.map] at h
          | error cause =>
            obtain rfl : cause = error := by simpa [hone, hrest, Except.map] using h
            obtain ⟨front, other, back, rfl, hother, herror, hfront⟩ := ih.1 hrest
            exact ⟨rule :: front, other, back, rfl, hother, herror,
              List.forall_mem_cons.2 ⟨fun _ => by simp [hone], hfront⟩⟩
      · rw [if_neg hruns] at h
        obtain ⟨front, other, back, rfl, hother, herror, hfront⟩ := ih.1 h
        exact ⟨rule :: front, other, back, rfl, hother, herror,
          List.forall_mem_cons.2 ⟨fun hrule => absurd hrule hruns, hfront⟩⟩
    · rintro ⟨front, other, back, hrules, hother, herror, hfront⟩
      cases front with
      | nil =>
        obtain ⟨rfl, rfl⟩ := List.cons.inj hrules
        rw [if_pos hother, herror]
      | cons first front =>
        rw [List.cons_append, List.cons.injEq] at hrules
        obtain ⟨rfl, rfl⟩ := hrules
        obtain ⟨hfirst, hfront⟩ := List.forall_mem_cons.1 hfront
        have hrest := ih.2 ⟨front, other, back, rfl, hother, herror, hfront⟩
        split
        next hruns =>
          cases hone : activate rule (configuration.rules.lookup rule.id) with
          | error cause => exact absurd hone (hfirst hruns cause)
          | ok one => simp [hrest, Except.map]
        next => exact hrest

/-- Only what is found for each rule matters. -/
lemma activeAmong_congr (hruns : ∀ rule ∈ rules, configuration.runs rule (configuration.rules.lookup rule.id) =
      other.runs rule (other.rules.lookup rule.id))
    (hactivate : ∀ rule ∈ rules, configuration.runs rule (configuration.rules.lookup rule.id) = true →
      activate rule (configuration.rules.lookup rule.id) = activate rule (other.rules.lookup rule.id)) :
    configuration.activeAmong rules = other.activeAmong rules := by
  induction rules with
  | nil => rfl
  | cons rule rest ih =>
    rw [List.forall_mem_cons] at hruns hactivate
    rw [activeAmong_cons, activeAmong_cons, ih hruns.2 hactivate.2, ← hruns.1]
    split
    next h => rw [hactivate.1 h]
    next => rfl

/-! ## The whole table -/

lemma require_eq_error_iff : registry.require id = .error error ↔ id ∉ registry.ids ∧ error = .unknownRule id := by
  have hnone : registry.lookup id = none ↔ id ∉ registry.ids := by
    simp [Registry.lookup, Registry.ids]
  rw [← hnone, Registry.require]
  cases registry.lookup id <;> simp [eq_comm]

lemma requireAll_cons (registry : Registry) (entry : String × Setting) (rest : List (String × Setting)) :
    requireAll registry (entry :: rest) =
      if entry.1 ∈ registry.ids then requireAll registry rest else .error (.unknownRule entry.1) := by
  rw [requireAll]
  cases hfound : registry.require entry.1 with
  | error error =>
    obtain ⟨hid, rfl⟩ := require_eq_error_iff.1 hfound
    rw [if_neg hid]
    rfl
  | ok rule =>
    have hid : entry.1 ∈ registry.ids := by
      by_contra hid
      simp [require_eq_error_iff.2 ⟨hid, rfl⟩] at hfound
    rw [if_pos hid]
    rfl

/-- The check of a table passes if all of its identifiers are known, and otherwise tells of the first that is not. -/
lemma requireAll_cases (registry : Registry) (rules : List (String × Setting)) :
    (requireAll registry rules = .ok () ∧ ∀ id ∈ rules.map Prod.fst, id ∈ registry.ids) ∨
      ∃ front id setting back, rules = front ++ (id, setting) :: back ∧ id ∉ registry.ids ∧
        (∀ entry ∈ front, entry.1 ∈ registry.ids) ∧ requireAll registry rules = .error (.unknownRule id) := by
  induction rules with
  | nil => exact Or.inl ⟨rfl, by simp⟩
  | cons entry rest ih =>
    rw [requireAll_cons]
    by_cases hid : entry.1 ∈ registry.ids
    · rw [if_pos hid]
      rcases ih with ⟨hrest, hall⟩ | ⟨front, id, setting, back, rfl, hunknown, hfront, herror⟩
      · exact Or.inl ⟨hrest, List.forall_mem_cons.2 ⟨hid, hall⟩⟩
      · exact Or.inr ⟨entry :: front, id, setting, back, rfl, hunknown, List.forall_mem_cons.2 ⟨hid, hfront⟩, herror⟩
    · rw [if_neg hid]
      exact Or.inr ⟨[], entry.1, entry.2, rest, rfl, hid, by simp, rfl⟩

lemma activeRules_eq (configuration : Configuration) (registry : Registry) :
    configuration.activeRules registry =
      match requireAll registry configuration.rules with
      | .error error => .error error
      | .ok _ => if configuration.enabled? = some false then .ok [] else configuration.activeAmong registry.rules := by
  rw [activeRules]
  cases requireAll registry configuration.rules with
  | error error => rfl
  | ok _ =>
    by_cases henabled : configuration.enabled? = some false
    · simp [henabled, pure, Except.pure, bind, Except.bind]
    · have hbeq : (configuration.enabled? == some false) = false := beq_eq_false_iff_ne.2 henabled
      simp [henabled, hbeq, bind, Except.bind]

lemma id_of_activate {active : ActiveRule} (h : activate rule setting? = .ok active) : active.rule.id = rule.id := by
  obtain ⟨-, hnone, hsome⟩ := Configuration.activate_eq_ok_iff.1 h
  cases hoptions : setting?.bind Setting.options? with
  | none => rw [hnone hoptions]
  | some options =>
    have hrule := hsome options hoptions
    rw [Rule.configured] at hrule
    cases hcheck : rule.configure options with
    | error error => simp [hcheck, Except.map] at hrule
    | ok check? =>
      rw [hcheck] at hrule
      rw [← Except.ok.inj hrule]
      cases check? <;> rfl

lemma Distinct.lookup_of_perm (h : configuration.Distinct) {rules : List (String × Setting)}
    (hperm : rules.Perm configuration.rules) (id : String) : rules.lookup id = configuration.rules.lookup id := by
  have hdistinct : Distinct { configuration with rules } := (hperm.map Prod.fst).nodup_iff.2 h
  ext setting
  rw [h.lookup_eq_some_iff, ← hperm.mem_iff]
  exact hdistinct.lookup_eq_some_iff

namespace AgreeButOff

/-- Where two configurations agree up to rules that are off, a rule has the same setting in both or is off in both. -/
lemma lookup (h : AgreeButOff configuration other) (id : String) :
    configuration.rules.lookup id = other.rules.lookup id ∨
      ∃ setting setting', configuration.rules.lookup id = some setting ∧ other.rules.lookup id = some setting' ∧
        setting.level? = some .off ∧ setting'.level? = some .off := by
  have hrules := h.rules
  generalize configuration.rules = rules at hrules
  generalize other.rules = rules' at hrules
  induction hrules with
  | nil => exact Or.inl rfl
  | @cons entry entry' rest rest' hentry _ ih =>
    obtain ⟨name, setting⟩ := entry
    obtain ⟨name', setting'⟩ := entry'
    obtain ⟨rfl, hsetting⟩ := hentry
    rw [List.lookup_cons, List.lookup_cons]
    cases id == name with
    | false => exact ih
    | true =>
      rcases hsetting with rfl | hoff
      · exact Or.inl rfl
      · exact Or.inr ⟨setting, setting', rfl, rfl, hoff⟩

lemma requireAll (h : AgreeButOff configuration other) (registry : Registry) :
    requireAll registry configuration.rules = requireAll registry other.rules := by
  have hrules := h.rules
  generalize configuration.rules = rules at hrules
  generalize other.rules = rules' at hrules
  induction hrules with
  | nil => rfl
  | cons hentry _ ih => rw [requireAll_cons, requireAll_cons, ih, hentry.1]

lemma activeAmong (h : AgreeButOff configuration other) (rules : List Rule) :
    configuration.activeAmong rules = other.activeAmong rules := by
  refine activeAmong_congr (fun rule _ => ?_) (fun rule _ hruns => ?_)
  · rcases h.lookup rule.id with hsame | ⟨setting, setting', hlookup, hlookup', hoff, hoff'⟩
    · rw [hsame]
      cases other.rules.lookup rule.id with
      | none => rw [runs, runs, h.recommended]
      | some setting => rfl
    · rw [hlookup, hlookup', runs, runs, Setting.isOff, Setting.isOff, hoff, hoff']
  · rcases h.lookup rule.id with hsame | ⟨setting, -, hlookup, -, hoff, -⟩
    · rw [hsame]
    · rw [hlookup, runs, Setting.isOff, hoff] at hruns
      simp at hruns

end AgreeButOff

/-! ## Resolving a configuration -/

lemma activeRules_of_known (h : ∀ id ∈ configuration.rules.map Prod.fst, id ∈ registry.ids) :
    configuration.activeRules registry =
      if configuration.enabled? = some false then .ok [] else configuration.activeAmong registry.rules := by
  rw [activeRules_eq]
  rcases requireAll_cases registry configuration.rules with ⟨hall, -⟩ | ⟨front, id, setting, back, hrules, hid, -⟩
  · rw [hall]
  · exact absurd (h id (by simp [hrules])) hid

lemma known_of_activeRules (h : configuration.activeRules registry = .ok active) :
    ∀ id ∈ configuration.rules.map Prod.fst, id ∈ registry.ids := by
  rw [activeRules_eq] at h
  rcases requireAll_cases registry configuration.rules with ⟨-, hall⟩ | ⟨_, _, _, _, -, -, -, herror⟩
  · exact hall
  · simp [herror] at h

section

variable (h : configuration.Distinct)

include h

lemma Distinct.activeAmong_ne_unknownRule (rules : List Rule) (id : String) :
    configuration.activeAmong rules ≠ .error (.unknownRule id) := by
  intro herror
  obtain ⟨-, rule, -, -, -, hrule, -⟩ := activeAmong_eq_error_iff.1 herror
  obtain ⟨cause, -, heq⟩ := h.activate_eq_error_iff.1 hrule
  simp [ConfigProblem.error] at heq

lemma Distinct.activeRules_eq_unknownRule_iff :
    configuration.activeRules registry = .error (.unknownRule id) ↔ configuration.FirstUnknown registry id := by
  rcases requireAll_cases registry configuration.rules with
    ⟨-, hall⟩ | ⟨front, other, setting, back, hrules, hother, hfront, herror⟩
  · rw [activeRules_of_known hall]
    constructor
    · intro hfail
      split at hfail
      · simp at hfail
      · exact absurd hfail (h.activeAmong_ne_unknownRule _ id)
    · rintro ⟨front, setting, back, hrules, hid, -⟩
      exact absurd (hall id (by simp [hrules])) hid
  · have hfail : configuration.activeRules registry = .error (.unknownRule other) := by rw [activeRules_eq, herror]
    rw [hfail, Except.error.injEq, Error.unknownRule.injEq]
    constructor
    · rintro rfl
      exact ⟨front, setting, back, hrules, hother, hfront⟩
    · rintro ⟨front', setting', back', hrules', hid, hfront'⟩
      -- both are the first entry of the table that is not known
      have hfirst : ∀ {front back : List (String × Setting)} {id : String} {setting : Setting},
          id ∉ registry.ids → (∀ entry ∈ front, entry.1 ∈ registry.ids) →
          (front ++ (id, setting) :: back).find? (fun entry => decide (entry.1 ∉ registry.ids)) =
            some (id, setting) := by
        intro front back id setting hid hfront
        rw [List.find?_append, List.find?_eq_none.2 (by simpa using hfront), Option.none_or]
        simp [hid]
      have hsame := (hfirst hother hfront).symm.trans (hrules ▸ hrules' ▸ hfirst hid hfront')
      exact (Prod.mk.inj (Option.some.inj hsame)).1

/-- Of the rules that run, the first that refuses its options makes all of it fail. -/
lemma Distinct.activeAmong_eq_error_iff :
    configuration.activeAmong registry.rules = .error error ↔ ∃ rule cause,
      configuration.FirstRefusal registry rule cause ∧ error = (ConfigProblem.invalidOptions rule.id cause).error := by
  rw [Configuration.activeAmong_eq_error_iff]
  simp only [h.runs_iff, h.activate_eq_error_iff, ne_eq, not_exists, not_and]
  constructor
  · rintro ⟨front, rule, back, hrules, hwanted, ⟨cause, hrefuses, rfl⟩, hfront⟩
    exact ⟨rule, cause, ⟨front, back, hrules, hwanted, hrefuses,
      fun before hbefore hruns cause hcause => hfront before hbefore hruns _ cause hcause rfl⟩, rfl⟩
  · rintro ⟨rule, cause, ⟨front, back, hrules, hwanted, hrefuses, hfront⟩, rfl⟩
    exact ⟨front, rule, back, hrules, hwanted, ⟨cause, hrefuses, rfl⟩,
      fun before hbefore hruns _ cause hcause _ => hfront before hbefore hruns cause hcause⟩

/-- If no rule that runs refuses its options, those that run are activated as the settings say. -/
lemma Distinct.exists_wanted_of_activeAmong (hactive : configuration.activeAmong rules = .ok active) :
    ∃ wanted, wanted.Sublist rules ∧ (∀ rule ∈ rules, rule ∈ wanted ↔ configuration.Wanted rule) ∧
      List.Forall₂ configuration.Resolves wanted active ∧ active.map (fun one => one.rule.id) = wanted.map Rule.id := by
  refine ⟨rules.filter fun rule => configuration.runs rule (configuration.rules.lookup rule.id), List.filter_sublist,
    fun rule hrule => by rw [List.mem_filter, h.runs_iff, and_iff_right hrule], ?_, ?_⟩
  · refine (forall₂_of_activeAmong hactive).imp ?_
    rintro rule one ⟨hruns, hone⟩
    exact (h.activate_eq_ok_iff ((h.runs_iff rule).1 hruns)).1 hone
  · have hids := (forall₂_of_activeAmong hactive).imp fun rule one hone => (id_of_activate hone.2).symm
    rw [eq_comm, ← List.forall₂_eq_eq_eq, List.forall₂_map_left_iff, List.forall₂_map_right_iff]
    exact hids

end

/-- **Active rules are what the configuration says, in the order of the catalog.** The first setting for an identifier
that no rule has is an error, also where the linter does not run. If all are known, then a linter that runs fails
exactly if a rule that runs refuses its options, and tells of the first one that does; otherwise the rules that run are
those that the settings ask for, each as they say. What else is set for a rule that is off makes no difference, and
neither does the order of the settings. -/
theorem activeRules_resolve (hregistry : registry.Distinct) (hdistinct : configuration.Distinct) :
    (∀ id, configuration.activeRules registry = .error (.unknownRule id) ↔ configuration.FirstUnknown registry id) ∧
    ((∀ id ∈ configuration.rules.map Prod.fst, id ∈ registry.ids) →
      (configuration.enabled? = some false → configuration.activeRules registry = .ok []) ∧
      (configuration.enabled? ≠ some false →
        ((∃ error, configuration.activeRules registry = .error error) ↔
          ∃ rule ∈ registry.rules, configuration.Wanted rule ∧ ∃ cause, configuration.Refuses rule cause) ∧
        (∀ error, configuration.activeRules registry = .error error → ∃ rule cause,
          configuration.FirstRefusal registry rule cause ∧ error = (ConfigProblem.invalidOptions rule.id cause).error) ∧
        ∀ active, configuration.activeRules registry = .ok active →
          (active.map fun one => one.rule.id).Sublist registry.ids ∧ (active.map fun one => one.rule.id).Nodup ∧
          ∃ wanted, wanted.Sublist registry.rules ∧
            (∀ rule ∈ registry.rules, rule ∈ wanted ↔ configuration.Wanted rule) ∧
            List.Forall₂ configuration.Resolves wanted active)) ∧
    (∀ other, AgreeButOff configuration other → other.activeRules registry = configuration.activeRules registry) ∧
    ∀ rules, rules.Perm configuration.rules → ∀ active, configuration.activeRules registry = .ok active →
      { configuration with rules := rules }.activeRules registry = .ok active := by
  refine ⟨fun id => hdistinct.activeRules_eq_unknownRule_iff, fun hknown => ⟨fun hoff => ?_, fun hon => ?_⟩, ?_, ?_⟩
  · rw [activeRules_of_known hknown, if_pos hoff]
  · rw [activeRules_of_known hknown, if_neg hon]
    refine ⟨?_, fun error => hdistinct.activeAmong_eq_error_iff.1, fun active hactive => ?_⟩
    · constructor
      · rintro ⟨error, herror⟩
        obtain ⟨rule, cause, ⟨front, back, hrules, hwanted, hrefuses, -⟩, -⟩ :=
          hdistinct.activeAmong_eq_error_iff.1 herror
        exact ⟨rule, by simp [hrules], hwanted, cause, hrefuses⟩
      · rintro ⟨rule, hrule, hwanted, cause, hrefuses⟩
        cases hactive : configuration.activeAmong registry.rules with
        | error error => exact ⟨error, rfl⟩
        | ok active =>
          obtain ⟨one, hone⟩ := exists_activate_of_activeAmong hactive hrule ((hdistinct.runs_iff rule).2 hwanted)
          rw [hdistinct.activate_eq_error_iff.2 ⟨cause, hrefuses, rfl⟩] at hone
          simp at hone
    · obtain ⟨wanted, hsub, hmem, hresolves, hids⟩ := hdistinct.exists_wanted_of_activeAmong hactive
      rw [hids]
      exact ⟨hsub.map Rule.id, hregistry.sublist (hsub.map Rule.id), wanted, hsub, hmem, hresolves⟩
  · intro other hagree
    rw [activeRules_eq, activeRules_eq, hagree.requireAll, hagree.enabled, hagree.activeAmong]
  · intro rules hperm active hactive
    have hknown := known_of_activeRules hactive
    have hknown' : ∀ id ∈ rules.map Prod.fst, id ∈ registry.ids := fun id hid =>
      hknown id ((hperm.map Prod.fst).mem_iff.1 hid)
    have hsame : configuration.activeAmong registry.rules =
        { configuration with rules }.activeAmong registry.rules := by
      refine activeAmong_congr (fun rule _ => ?_) (fun rule _ _ => ?_) <;> rw [← hdistinct.lookup_of_perm hperm]
      cases rules.lookup rule.id <;> rfl
    rw [activeRules_of_known hknown] at hactive
    rw [activeRules_of_known hknown', ← hsame, ← hactive]

/-- A rule that is off has options that it would refuse, and the other one is named behind it. -/
theorem activeRules_resolve_off :
    let registry := Rules.registry
    let off : String × Setting := ("nimble_operator", .detailed (some .off) (some (.bool true)))
    let on : String × Setting := ("redundant_void_return", .level .error)
    let configuration : Configuration := ⟨none, none, [off, on]⟩
    registry.Distinct ∧ configuration.Distinct ∧ configuration.enabled? ≠ some false ∧
      configuration.activeRules registry = .ok [⟨Rules.voidReturn true, .error⟩] ∧
      (¬ ∃ rule ∈ registry.rules, configuration.Wanted rule ∧ ∃ cause, configuration.Refuses rule cause) ∧
      (∃ wanted, wanted.Sublist registry.rules ∧
        List.Forall₂ configuration.Resolves wanted [⟨Rules.voidReturn true, .error⟩]) ∧
      ({ configuration with rules := [on, off] } : Configuration).activeRules registry =
        .ok [⟨Rules.voidReturn true, .error⟩] := by
  intro registry off on configuration
  have hregistry : registry.Distinct := show ["redundant_void_return", "nimble_operator"].Nodup by decide
  have hdistinct : configuration.Distinct := show ["nimble_operator", "redundant_void_return"].Nodup by decide
  have hknown : ∀ id ∈ configuration.rules.map Prod.fst, id ∈ registry.ids :=
    show ∀ id ∈ ["nimble_operator", "redundant_void_return"], id ∈ ["redundant_void_return", "nimble_operator"] by
      decide
  have hactive : configuration.activeRules registry = .ok [⟨Rules.voidReturn true, .error⟩] := by rfl
  obtain ⟨-, hresolve, -, hperm⟩ := activeRules_resolve hregistry hdistinct
  obtain ⟨hrefusal, -, hok⟩ := (hresolve hknown).2 (by simp [configuration])
  obtain ⟨-, -, wanted, hsub, -, hresolves⟩ := hok _ hactive
  refine ⟨hregistry, hdistinct, by simp [configuration], hactive, ?_, ⟨wanted, hsub, hresolves⟩,
    hperm [on, off] (List.Perm.swap _ _ _) _ hactive⟩
  rw [← hrefusal, hactive]
  simp

end SwiftTidy.Configuration

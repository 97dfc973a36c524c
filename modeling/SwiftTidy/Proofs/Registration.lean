import SwiftTidy.Rules.Builtin
import Mathlib.Data.List.Nodup

/-!
# Runs of registrations

A catalog grows by batches, some of which are refused. The pass that looks a batch through says beforehand what the
pass that puts the rules in would meet: no rule of a batch that is taken displaces another one. Hence after any run of
calls the catalog consists of the batches that were taken, one behind the other, and an identifier leads to the one rule
that has it (`Registry.registration_run`).
-/

namespace SwiftTidy.Registry

variable {registry later : Registry} {batch : List Rule}

/-! ## Clashes -/

/-- The identifier of the first rule of a batch that is taken, either in the catalog or by a rule that stands before it
in the batch. -/
def FirstClash (registry : Registry) (batch : List Rule) (id : String) : Prop :=
  ∃ front rule back, batch = front ++ rule :: back ∧ rule.id = id ∧
    (front.map Rule.id).Nodup ∧ (∀ other ∈ front, other.id ∉ registry.ids) ∧
    (rule.id ∈ registry.ids ∨ rule.id ∈ front.map Rule.id)

/-- A batch with a clash: it repeats an identifier, or it names one that the catalog has. -/
def Clashes (registry : Registry) (batch : List Rule) : Prop :=
  ¬ (batch.map Rule.id).Nodup ∨ ∃ rule ∈ batch, rule.id ∈ registry.ids

variable {id : String} {taken : List String}

lemma clash?_eq_none_iff : clash? taken batch = none ↔ (batch.map Rule.id).Nodup ∧ ∀ rule ∈ batch, rule.id ∉ taken := by
  induction batch generalizing taken with
  | nil => simp [clash?]
  | cons rule rest ih =>
    rw [clash?]
    by_cases hrule : rule.id ∈ taken
    · simp [hrule]
    · simp only [List.contains_iff_mem, hrule, if_false, ih, List.map_cons, List.nodup_cons, List.mem_cons,
        forall_eq_or_imp, not_or, not_false_eq_true, true_and, List.mem_map, not_exists, not_and]
      constructor
      · rintro ⟨hnodup, hfree⟩
        exact ⟨⟨fun other hother => (hfree other hother).1, hnodup⟩, fun other hother => (hfree other hother).2⟩
      · rintro ⟨⟨hfresh, hnodup⟩, hfree⟩
        exact ⟨hnodup, fun other hother => ⟨hfresh other hother, hfree other hother⟩⟩

/-- The look-through stops at the first rule whose identifier is taken. -/
lemma exists_split_of_clash? (h : clash? taken batch = some id) :
    ∃ front rule back, batch = front ++ rule :: back ∧ rule.id = id ∧ (front.map Rule.id).Nodup ∧
      (∀ other ∈ front, other.id ∉ taken) ∧ (rule.id ∈ taken ∨ rule.id ∈ front.map Rule.id) := by
  induction batch generalizing taken with
  | nil => simp [clash?] at h
  | cons rule rest ih =>
    rw [clash?] at h
    by_cases hrule : rule.id ∈ taken
    · simp only [List.contains_iff_mem, hrule, if_true, Option.some.injEq] at h
      exact ⟨[], rule, rest, rfl, h, by simp, by simp, Or.inl hrule⟩
    · simp only [List.contains_iff_mem, hrule, if_false] at h
      obtain ⟨front, other, back, rfl, hid, hnodup, hfree, hclash⟩ := ih h
      refine ⟨rule :: front, other, back, rfl, hid, ?_, ?_, ?_⟩
      · rw [List.map_cons, List.nodup_cons]
        refine ⟨?_, hnodup⟩
        intro hmem
        obtain ⟨next, hnext, heq⟩ := List.mem_map.1 hmem
        exact hfree next hnext (by simp [heq])
      · intro next hnext
        rcases List.mem_cons.1 hnext with rfl | hnext
        · exact hrule
        · exact fun hmem => hfree next hnext (by simp [hmem])
      · rcases hclash with hclash | hclash
        · rcases List.mem_cons.1 hclash with heq | hclash
          · exact Or.inr (by simp [heq])
          · exact Or.inl hclash
        · exact Or.inr (List.mem_cons_of_mem _ hclash)

/-! ## One call -/

lemma forM_insert (batch : List Rule) (registry : Registry) :
    (batch.forM fun rule => modify fun registry => registry.insert rule : EStateM Error Registry Unit) registry =
      .ok () (batch.foldl insert registry) := by
  induction batch generalizing registry with
  | nil => rfl
  | cons rule rest ih => exact ih (registry.insert rule)

lemma enroll_eq (registry : Registry) (batch : List Rule) :
    enroll batch registry =
      match clash? registry.ids batch with
      | some id => .error (.duplicateRule id) registry
      | none => .ok () (batch.foldl insert registry) := by
  have hbody : enroll batch registry =
      (match clash? registry.ids batch with
        | some id => throw (.duplicateRule id)
        | none => batch.forM fun rule => modify fun registry => registry.insert rule :
          EStateM Error Registry Unit) registry := rfl
  rw [hbody]
  cases clash? registry.ids batch with
  | some id => rfl
  | none => exact forM_insert batch registry

/-- Rules whose identifiers are free go in at the end. -/
lemma rules_foldl_insert (hnodup : (batch.map Rule.id).Nodup) (hfree : ∀ rule ∈ batch, rule.id ∉ registry.ids) :
    (batch.foldl insert registry).rules = registry.rules ++ batch := by
  induction batch generalizing registry with
  | nil => simp
  | cons rule rest ih =>
    rw [List.map_cons, List.nodup_cons] at hnodup
    have hinsert : registry.insert rule = ⟨registry.rules ++ [rule]⟩ := by
      simp [insert, hfree rule (by simp)]
    rw [List.foldl_cons, hinsert, ih hnodup.2]
    · simp
    · intro other hother hmem
      simp only [ids, List.map_append, List.map_cons, List.map_nil, List.mem_append, List.mem_singleton] at hmem
      rcases hmem with hmem | heq
      · exact hfree other (by simp [hother]) hmem
      · exact hnodup.1 (heq ▸ List.mem_map_of_mem hother)

/-- A call either takes a batch without a clash, whose rules then stand behind all others, or it fails at the first clash
and leaves the catalog as it was. -/
lemma enroll_cases (registry : Registry) (batch : List Rule) :
    (¬ Clashes registry batch ∧ ∃ later, enroll batch registry = .ok () later ∧ later.rules = registry.rules ++ batch) ∨
      ∃ id, Clashes registry batch ∧ FirstClash registry batch id ∧
        enroll batch registry = .error (.duplicateRule id) registry := by
  rw [enroll_eq]
  cases h : clash? registry.ids batch with
  | none =>
    obtain ⟨hnodup, hfree⟩ := clash?_eq_none_iff.1 h
    refine Or.inl ⟨?_, _, rfl, rules_foldl_insert hnodup hfree⟩
    rintro (hrepeats | ⟨rule, hrule, hmem⟩)
    · exact hrepeats hnodup
    · exact hfree rule hrule hmem
  | some id =>
    refine Or.inr ⟨id, ?_, exists_split_of_clash? h, rfl⟩
    by_contra hnone
    have hfree : clash? registry.ids batch = none := by
      rw [clash?_eq_none_iff]
      rw [Clashes, not_or, not_not] at hnone
      exact ⟨hnone.1, fun rule hrule hmem => hnone.2 ⟨rule, hrule, hmem⟩⟩
    simp [hfree] at h

/-! ## Runs -/

/-- The batches that are taken in a run of calls from a catalog on, and the catalog in the end. -/
def runFrom (registry : Registry) : List (List Rule) → List (List Rule) × Registry
  | [] => ([], registry)
  | batch :: rest =>
    match enroll batch registry with
    | .ok _ later => (batch :: (later.runFrom rest).1, (later.runFrom rest).2)
    | .error _ later => later.runFrom rest

/-- No two rules of a catalog have the same identifier. -/
def Distinct (registry : Registry) : Prop := registry.ids.Nodup

lemma Distinct.enroll (h : registry.Distinct) (hclash : ¬ Clashes registry batch)
    (hrules : later.rules = registry.rules ++ batch) : later.Distinct := by
  rw [Clashes, not_or, not_not] at hclash
  rw [Distinct, ids, hrules, List.map_append, List.nodup_append]
  refine ⟨h, hclash.1, ?_⟩
  rintro id hid other hother rfl
  obtain ⟨rule, hrule, rfl⟩ := List.mem_map.1 hother
  exact hclash.2 ⟨rule, hrule, hid⟩

lemma Distinct.run (h : registry.Distinct) (batches : List (List Rule)) :
    (registry.runFrom batches).2.Distinct ∧
      (registry.runFrom batches).2.rules = registry.rules ++ (registry.runFrom batches).1.flatten := by
  induction batches generalizing registry with
  | nil => exact ⟨h, by simp [runFrom]⟩
  | cons batch rest ih =>
    rcases registry.enroll_cases batch with ⟨hclash, later, henroll, hrules⟩ | ⟨id, -, -, henroll⟩
    · obtain ⟨hdistinct, hrun⟩ := ih (h.enroll hclash hrules)
      simp only [runFrom, henroll]
      exact ⟨hdistinct, by rw [hrun, hrules, List.flatten_cons, List.append_assoc]⟩
    · simpa only [runFrom, henroll] using ih h

lemma Distinct.lookup_eq_some_iff (h : registry.Distinct) {rule : Rule} :
    registry.lookup id = some rule ↔ rule ∈ registry.rules ∧ rule.id = id := by
  constructor
  · intro hfound
    exact ⟨List.mem_of_find?_eq_some hfound, by simpa using List.find?_some hfound⟩
  · rintro ⟨hmem, rfl⟩
    cases hfound : registry.lookup rule.id with
    | none => simpa using List.find?_eq_none.1 hfound rule hmem
    | some other =>
      have hother : other ∈ registry.rules := List.mem_of_find?_eq_some hfound
      have hid : other.id = rule.id := by simpa using List.find?_some hfound
      rw [List.inj_on_of_nodup_map h hother hmem hid]

/-- Whatever batches are registered one after the other, beginning with the empty catalog: a call fails exactly if its
batch has a clash, namely with the first clash of the batch, and leaves the catalog as it was. In the end no identifier
occurs twice, the identifiers are those of the batches that were taken, in the order of the calls, and the rule with an
identifier is the one that is found under it. -/
theorem registration_run (batches : List (List Rule)) :
    (∀ before batch after, batches = before ++ batch :: after →
      let registry := (empty.runFrom before).2
      ((∃ error later, enroll batch registry = .error error later) ↔ Clashes registry batch) ∧
        ∀ error later, enroll batch registry = .error error later →
          later = registry ∧ ∃ id, error = .duplicateRule id ∧ FirstClash registry batch id) ∧
    let registry := (empty.runFrom batches).2
    registry.ids.Nodup ∧ registry.ids = (empty.runFrom batches).1.flatten.map Rule.id ∧
      (∀ id rule, registry.lookup id = some rule ↔ rule ∈ registry.rules ∧ rule.id = id) ∧
      (∀ id ∈ registry.ids, ∃! rule, rule ∈ registry.rules ∧ rule.id = id) ∧
      ∀ id ∉ registry.ids, registry.lookup id = none := by
  constructor
  · intro before batch after _ registry
    rcases registry.enroll_cases batch with ⟨hclash, later, henroll, -⟩ | ⟨id, hclash, hfirst, henroll⟩
    · simp [henroll, hclash]
    · simp only [henroll, EStateM.Result.error.injEq, hclash, iff_true]
      refine ⟨⟨_, _, rfl, rfl⟩, ?_⟩
      rintro _ _ ⟨rfl, rfl⟩
      exact ⟨rfl, id, rfl, hfirst⟩
  · intro registry
    have hempty : empty.Distinct := List.nodup_nil
    obtain ⟨hdistinct, hrules⟩ := hempty.run batches
    have hrules : registry.rules = (empty.runFrom batches).1.flatten := hrules
    refine ⟨hdistinct, by rw [ids, hrules], fun id rule => hdistinct.lookup_eq_some_iff, ?_, ?_⟩
    · intro id hid
      obtain ⟨rule, hrule, rfl⟩ := List.mem_map.1 hid
      exact ⟨rule, ⟨hrule, rfl⟩, fun other hother => List.inj_on_of_nodup_map hdistinct hother.1 hrule hother.2⟩
    · intro id hid
      rw [Option.eq_none_iff_forall_not_mem]
      intro rule hrule
      obtain ⟨hmem, rfl⟩ := hdistinct.lookup_eq_some_iff.1 hrule
      exact hid (List.mem_map_of_mem hmem)

/-- A batch that names a rule again is refused as a whole, and its other rule can still be registered. -/
theorem registration_run_refused :
    let refused := [Rules.expectation, Rules.voidReturn false]
    let batches := [[Rules.voidReturn true], refused, [Rules.expectation]]
    Clashes (empty.runFrom [[Rules.voidReturn true]]).2 refused ∧
      (empty.runFrom batches).2.ids.Nodup ∧
      (empty.runFrom batches).2.ids = ["redundant_void_return", "nimble_operator"] := by
  intro refused batches
  have hcall := (registration_run batches).1 [[Rules.voidReturn true]] refused [[Rules.expectation]] rfl
  obtain ⟨hnodup, hids, -⟩ := (registration_run batches).2
  exact ⟨hcall.1.1 ⟨_, _, rfl⟩, hnodup, hids.trans rfl⟩

end SwiftTidy.Registry

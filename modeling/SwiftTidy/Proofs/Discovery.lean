import SwiftTidy.Config.Loader
import Mathlib.Data.List.Induction

/-!
# Finding the nearest configuration

The search goes up from a location, and looks for each of the names in turn before it goes on to the next directory.
So a file is found exactly if no directory that is nearer has any of the names, and no preferred name is in its own
directory (`Configuration.discover_nearest`).
-/

namespace SwiftTidy.Configuration

variable {files : FileSystem} {location directory target : Location}

/-- The file with one of the names in a directory that is preferred to all others there. -/
def Preferred (files : FileSystem) (directory target : Location) : Prop :=
  ∃ before name after, fileNames = before ++ name :: after ∧ target = directory ++ [name] ∧
    files.isFile target = true ∧ ∀ other ∈ before, files.isFile (directory ++ [other]) = false

/-- The directory has no file with one of the names. -/
def Bare (files : FileSystem) (directory : Location) : Prop :=
  ∀ name ∈ fileNames, files.isFile (directory ++ [name]) = false

/-! ## One directory -/

/-- The places that are tried in a directory. -/
def tried (directory : Location) : List Location := fileNames.map fun name => directory ++ [name]

lemma find?_tried_eq_some_iff :
    (tried directory).find? files.isFile = some target ↔ Preferred files directory target := by
  rw [List.find?_eq_some_iff_append, tried]
  constructor
  · rintro ⟨hfile, front, back, hnames, hfront⟩
    obtain ⟨before, rest, hsplit, rfl, hrest⟩ := List.map_eq_append_iff.1 hnames
    obtain ⟨name, after, rfl, rfl, -⟩ := List.map_eq_cons_iff.1 hrest
    refine ⟨before, name, after, hsplit, rfl, hfile, fun other hother => ?_⟩
    simpa using hfront _ (List.mem_map_of_mem hother)
  · rintro ⟨before, name, after, hsplit, rfl, hfile, hbefore⟩
    refine ⟨hfile, before.map fun name => directory ++ [name], after.map fun name => directory ++ [name], ?_, ?_⟩
    · rw [hsplit, List.map_append, List.map_cons]
    · rintro _ hmem
      obtain ⟨other, hother, rfl⟩ := List.mem_map.1 hmem
      simpa using hbefore other hother

lemma find?_tried_eq_none_iff : (tried directory).find? files.isFile = none ↔ Bare files directory := by
  simp [tried, Bare]

/-! ## The way up -/

lemma candidates_eq (location : Location) : candidates location = (upward location).flatMap tried := rfl

@[simp] lemma upward_nil : upward [] = [[]] := rfl

lemma upward_concat (location : Location) (name : String) :
    upward (location ++ [name]) = (location ++ [name]) :: upward location := by
  rw [upward, upward, List.length_append, List.length_singleton, List.range_succ, List.map_append, List.reverse_append,
    List.map_singleton, List.reverse_singleton, List.singleton_append, List.take_of_length_le (by simp)]
  congr 2
  refine List.map_congr_left fun n hn => List.take_append_of_le_length ?_
  have := List.mem_range.1 hn
  omega

lemma discoverFrom_concat (files : FileSystem) (location : Location) (name : String) :
    discoverFrom files (location ++ [name]) =
      ((tried (location ++ [name])).find? files.isFile).or (discoverFrom files location) := by
  rw [discoverFrom, candidates_eq, upward_concat, List.flatMap_cons, List.find?_append, ← candidates_eq, ← discoverFrom]

lemma discoverFrom_nil (files : FileSystem) : discoverFrom files [] = (tried []).find? files.isFile := by
  rw [discoverFrom, candidates_eq, upward_nil, List.flatMap_singleton]

/-- What is found is preferred in a directory on the way up, and all directories before that one are bare. -/
lemma discoverFrom_eq_some_iff :
    discoverFrom files location = some target ↔
      ∃ directory, directory <+: location ∧ Preferred files directory target ∧
        ∀ nearer, directory <+: nearer → nearer ≠ directory → nearer <+: location → Bare files nearer := by
  induction location using List.reverseRecOn with
  | nil =>
    rw [discoverFrom_nil, find?_tried_eq_some_iff]
    constructor
    · intro hfound
      refine ⟨[], List.nil_prefix, hfound, fun nearer _ hne hnearer => ?_⟩
      exact absurd (List.prefix_nil.1 hnearer) hne
    · rintro ⟨directory, hdirectory, hfound, -⟩
      rwa [List.prefix_nil.1 hdirectory] at hfound
  | append_singleton location name ih =>
    rw [discoverFrom_concat, Option.or_eq_some_iff, find?_tried_eq_some_iff, find?_tried_eq_none_iff, ih]
    constructor
    · rintro (hfound | ⟨hbare, directory, hdirectory, hfound, hnearer⟩)
      · refine ⟨location ++ [name], List.prefix_rfl, hfound, fun nearer hle hne hge => ?_⟩
        exact absurd (hge.eq_of_length_le hle.length_le) hne
      · refine ⟨directory, hdirectory.trans (List.prefix_append location [name]), hfound, fun nearer hle hne hge => ?_⟩
        rcases List.prefix_concat_iff.1 hge with rfl | hge
        · exact hbare
        · exact hnearer nearer hle hne hge
    · rintro ⟨directory, hdirectory, hfound, hnearer⟩
      rcases List.prefix_concat_iff.1 hdirectory with rfl | hdirectory
      · exact Or.inl hfound
      · have hlt : location ++ [name] ≠ directory := by
          rintro rfl
          have := hdirectory.length_le
          rw [List.length_append, List.length_singleton] at this
          omega
        refine Or.inr ⟨hnearer _ (hdirectory.trans (List.prefix_append _ _)) hlt List.prefix_rfl, directory, hdirectory,
          hfound, fun nearer hle hne hge => hnearer nearer hle hne (hge.trans (List.prefix_append _ _))⟩

lemma discoverFrom_eq_none_iff :
    discoverFrom files location = none ↔ ∀ directory, directory <+: location → Bare files directory := by
  induction location using List.reverseRecOn with
  | nil => simp only [discoverFrom_nil, find?_tried_eq_none_iff, List.prefix_nil, forall_eq]
  | append_singleton location name ih =>
    simp only [discoverFrom_concat, Option.or_eq_none_iff, find?_tried_eq_none_iff, ih, List.prefix_concat_iff,
      forall_eq_or_imp]

lemma length_upward (location : Location) : (upward location).length = location.length + 1 := by simp [upward]

/-- **The nearest file with the preferred name is found.** From a place that is there, the search ends with a file
exactly if the file has one of the names, lies in the directory or in one above it, no preferred name is a file beside
it, and no name is a file in any directory on the way. It ends with nothing exactly if no directory on the way up has
such a file. It always ends, after at most one look for each name in each directory. -/
theorem discover_nearest {path : String} (h : files.locate path = .ok location) :
    (∀ target, discover files path = .ok (some target) ↔
      ∃ directory, directory <+: location ∧ Preferred files directory target ∧
        ∀ nearer, directory <+: nearer → nearer ≠ directory → nearer <+: location → Bare files nearer) ∧
    (discover files path = .ok none ↔ ∀ directory, directory <+: location → Bare files directory) ∧
    (∃ result, discover files path = .ok result) ∧
    (candidates location).length = (location.length + 1) * fileNames.length := by
  have hsearch : discover files path = .ok (discoverFrom files location) := by rw [discover, h]
  refine ⟨fun target => ?_, ?_, ⟨_, hsearch⟩, ?_⟩
  · rw [hsearch, Except.ok.injEq, discoverFrom_eq_some_iff]
  · rw [hsearch, Except.ok.injEq, discoverFrom_eq_none_iff]
  · rw [candidates_eq, List.length_flatMap, ← length_upward]
    simp [tried, List.map_const']

/-- A directory with the best name is passed over, and a nearer file counts before one with a better name. -/
theorem discover_nearest_above :
    let files : FileSystem := ⟨[([".kestrel.toml"], .file []), (["a", "kestrel.json"], .file []),
      (["a", "kestrel.toml"], .file []), (["a", "b", ".kestrel.toml"], .directory)], ["a"]⟩
    files.locate "b" = .ok ["a", "b"] ∧ discover files "b" = .ok (some ["a", "kestrel.toml"]) ∧
      ∃ directory, directory <+: ["a", "b"] ∧ Preferred files directory ["a", "kestrel.toml"] ∧
        ∀ nearer, directory <+: nearer → nearer ≠ directory → nearer <+: ["a", "b"] → Bare files nearer := by
  intro files
  have hsteps : "b".splitOn "/" = ["b"] := by
    rw [String.splitOn, if_neg (by decide), String.splitOnAux, if_neg (by decide +kernel), if_neg (by decide +kernel),
      String.splitOnAux, if_pos (by decide +kernel)]
    decide +kernel
  have hlocate : files.locate "b" = .ok ["a", "b"] := by
    rw [FileSystem.locate, hsteps]
    decide +kernel
  have hfound : discover files "b" = .ok (some ["a", "kestrel.toml"]) := by
    rw [discover, hlocate]
    decide +kernel
  exact ⟨hlocate, hfound, ((discover_nearest hlocate).1 _).1 hfound⟩

end SwiftTidy.Configuration

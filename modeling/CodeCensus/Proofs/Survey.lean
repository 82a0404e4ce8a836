import CodeCensus.Proofs.Holdings
import CodeCensus.Proofs.Reading
import CodeCensus.Proofs.Terrain

/-!
# The terrain of a project

Files in memory have a terrain below every location: the directories that are not passed over, and
the supported files that can be read and recognised. What the reader finds at a path depicts what
counts there, and a scan depicts the terrain of the project.
-/

namespace CodeCensus

open Terrain (Depicts Inside Regular)

namespace MemoryFiles

variable {settings : Settings} {files other : MemoryFiles} {here there : Location}
  {names lower : List String} {name : String} {entry : Entry}

/-- What a file counts as. -/
def sourceAt? (settings : Settings) (files : MemoryFiles) (location : Location) (name : String) :
    Option Ground :=
  if settings.supports ⟨name⟩ then
    (files.bytesAt? location).bind fun bytes =>
      match textOfBytes bytes with
      | .error _ => none
      | .ok contents =>
        match Source.recognize name contents with
        | .ok (some entry) => some (.source entry)
        | _ => none
  else none

/-- What counts at the places below a location. -/
def survey (settings : Settings) (files : MemoryFiles) (here : Location) : Terrain
  | [] => if here ∈ files.directories then some .package else none
  | name :: rest =>
    if here ++ [name] ∈ files.directories then
      if settings.excludedDirs.contains name then none
      else survey settings files (here ++ [name]) rest
    else if rest = [] then files.sourceAt? settings (here ++ [name]) name
    else none

/-- A source file is a file of text that the recogniser understands. -/
theorem sourceAt?_eq_some {ground : Ground}
    (found : files.sourceAt? settings here name = some ground) : ∃ bytes contents entry,
      files.bytesAt? here = some bytes ∧ textOfBytes bytes = .ok contents ∧
      Source.recognize name contents = .ok (some entry) ∧ ground = .source entry := by
  unfold sourceAt? at found
  split at found
  · obtain ⟨bytes, bytesHere, rest⟩ := Option.bind_eq_some_iff.mp found
    split at rest
    · cases rest
    · next contents text =>
      split at rest
      · next entry recognized =>
        exact ⟨bytes, contents, entry, bytesHere, text, recognized, (Option.some.inj rest).symm⟩
      · cases rest
  · cases found

/-- What counts at a place is a package in a directory, or a file of the last name. -/
theorem survey_eq_some {ground : Ground} (found : survey settings files here names = some ground) :
    (ground = .package ∧ here ++ names ∈ files.directories) ∨
      ∃ upper name, names = upper ++ [name] ∧ here ++ names ∉ files.directories ∧
        files.sourceAt? settings (here ++ names) name = some ground := by
  induction names generalizing here with
  | nil =>
    rw [survey] at found
    split at found
    · next directory => exact .inl ⟨(Option.some.inj found).symm, by rwa [List.append_nil]⟩
    · cases found
  | cons first rest inductionHypothesis =>
    rw [survey] at found
    split at found
    · split at found
      · cases found
      · rcases inductionHypothesis found with
          ⟨isPackage, directory⟩ | ⟨upper, name, rfl, noDirectory, source⟩
        · exact .inl ⟨isPackage, by rwa [List.append_assoc] at directory⟩
        · rw [List.append_assoc] at noDirectory source
          exact .inr ⟨first :: upper, name, rfl, noDirectory, source⟩
    · next noDirectory =>
      split at found
      · next last =>
        obtain rfl := last
        exact .inr ⟨[], first, rfl, noDirectory, found⟩
      · cases found

/-- What counts is there. -/
theorem holds_of_survey (found : survey settings files here names ≠ none) :
    files.Holds (here ++ names) := by
  obtain ⟨ground, found⟩ := Option.ne_none_iff_exists'.mp found
  rcases survey_eq_some found with ⟨-, directory⟩ | ⟨_, _, -, -, source⟩
  · exact .inl directory
  · obtain ⟨bytes, _, _, bytesHere, -⟩ := sourceAt?_eq_some source
    exact .inr ⟨bytes, bytesHere⟩

/-- Below a package the survey goes on from there. -/
theorem survey_append (package : survey settings files here names = some .package) :
    survey settings files here (names ++ lower) = survey settings files (here ++ names) lower := by
  induction names generalizing here with
  | nil => rw [List.nil_append, List.append_nil]
  | cons first rest inductionHypothesis =>
    rw [survey] at package
    split at package
    · next directory =>
      split at package
      · cases package
      · next included =>
        rw [List.cons_append, survey, if_pos directory, if_neg included,
          inductionHypothesis package, List.append_assoc, List.singleton_append]
    · split at package
      · obtain ⟨_, _, _, -, -, -, impossible⟩ := sourceAt?_eq_some package
        cases impossible
      · cases package

/-- In a package a directory is a package unless it is passed over. -/
theorem survey_directory (package : survey settings files here names = some .package)
    (directory : here ++ names ++ [name] ∈ files.directories)
    (included : settings.excludedDirs.contains name = false) :
    survey settings files here (names ++ [name]) = some .package := by
  rw [survey_append package, survey, if_pos directory, included, survey, if_pos directory]
  rfl

/-- What counts lies in a package. -/
theorem survey_above (root : here ∈ files.directories)
    (found : survey settings files here (names ++ [name]) ≠ none) :
    survey settings files here names = some .package := by
  induction names generalizing here with
  | nil => rw [survey, if_pos root]
  | cons first rest inductionHypothesis =>
    rw [List.cons_append, survey] at found
    rw [survey]
    split at found
    · next directory =>
      split at found
      · exact absurd rfl found
      · next included =>
        rw [if_pos directory, if_neg included]
        exact inductionHypothesis directory found
    · rw [if_neg (by simp)] at found
      exact absurd rfl found

/-- Two locations hold the same. -/
structure SameAt (files other : MemoryFiles) (here there : Location) : Prop where
  directory : here ∈ files.directories ↔ there ∈ other.directories
  bytes : files.bytesAt? here = other.bytesAt? there

/-- The survey of a place depends on the way there only. -/
theorem survey_congr (same : ∀ lower, lower <+: names →
      SameAt files other (here ++ lower) (there ++ lower)) :
    survey settings files here names = survey settings other there names := by
  induction names generalizing here there with
  | nil =>
    have top := (same [] (List.prefix_refl _)).directory
    rw [List.append_nil, List.append_nil] at top
    simp only [survey, top]
  | cons first rest inductionHypothesis =>
    have next := same [first] (List.cons_prefix_cons.mpr ⟨rfl, List.nil_prefix⟩)
    have onward : survey settings files (here ++ [first]) rest =
        survey settings other (there ++ [first]) rest := by
      refine inductionHypothesis fun lower within => ?_
      rw [List.append_assoc, List.append_assoc]
      exact same _ (List.cons_prefix_cons.mpr ⟨rfl, within⟩)
    simp only [survey, next.directory, onward, sourceAt?, next.bytes]

/-- The terrain below a directory is regular. -/
theorem survey_regular (settings : Settings) (root : here ∈ files.directories) :
    (survey settings files here).Regular where
  root := if_pos root
  above _ _ := survey_above root
  source names entry found := by
    rcases survey_eq_some found with ⟨impossible, -⟩ | ⟨upper, name, rfl, -, source⟩
    · cases impossible
    · obtain ⟨_, _, recognized, -, -, done, same⟩ := sourceAt?_eq_some source
      cases same
      obtain ⟨named, kind, sound⟩ := Source.recognize_sound done
      exact ⟨by rw [List.getLast?_concat, named], kind, sound⟩

end MemoryFiles

end CodeCensus

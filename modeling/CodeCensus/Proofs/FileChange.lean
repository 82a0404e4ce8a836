import CodeCensus.Project.Event
import CodeCensus.Proofs.Size
import CodeCensus.Proofs.Tracking

/-!
# Changes of files

The files below a project change one at a time: something appears, vanishes, moves, gets other
contents or another name, and an event tells of it. Each change leaves the terrain of the project as
it was but for what is under the names of the change.
-/

namespace CodeCensus

open MemoryFiles (survey SameAt)

/-- Something new is in a directory, and the rest is as it was. -/
structure Appears (before after : MemoryFiles) (directory : Location) (name : String) : Prop where
  free : ¬before.Holds (directory ++ [name])
  parent : directory ∈ before.directories
  elsewhere : ∀ location, ¬directory ++ [name] <+: location →
    SameAt before after location location

/-- Something is gone from a directory, and the rest is as it was. -/
structure Vanishes (before after : MemoryFiles) (directory : Location) (name : String) :
    Prop where
  held : before.Holds (directory ++ [name])
  gone : ¬after.Holds (directory ++ [name])
  elsewhere : ∀ location, ¬directory ++ [name] <+: location →
    SameAt before after location location

/-- A file has other contents, and the rest is as it was. -/
structure Rewritten (before after : MemoryFiles) (location : Location) : Prop where
  old : ∃ bytes, before.bytesAt? location = some bytes
  new : ∃ bytes, after.bytesAt? location = some bytes
  directory : location ∈ before.directories ↔ location ∈ after.directories
  elsewhere : ∀ other, other ≠ location → SameAt before after other other

/-- Something is gone from one directory, something new is in another, and the rest is as it was. -/
structure Moves (before after : MemoryFiles) (directory : Location) (name : String)
    (target : Location) (targetName : String) : Prop where
  held : before.Holds (directory ++ [name])
  gone : ¬after.Holds (directory ++ [name])
  free : ¬before.Holds (target ++ [targetName])
  parent : target ∈ before.directories
  elsewhere : ∀ location, ¬directory ++ [name] <+: location → ¬target ++ [targetName] <+: location →
    SameAt before after location location

/-- A source file goes by another name of a source file, or a directory by another name of a
directory that is not passed over, with all that is in it, and the rest is as it was. -/
structure Renames (settings : Settings) (before after : MemoryFiles) (directory : Location)
    (previous name : String) : Prop where
  held : before.Holds (directory ++ [previous])
  gone : ¬after.Holds (directory ++ [previous])
  free : ¬before.Holds (directory ++ [name])
  carried : ∀ lower, SameAt before after (directory ++ previous :: lower) (directory ++ name :: lower)
  elsewhere : ∀ location, ¬directory ++ [previous] <+: location →
    ¬directory ++ [name] <+: location → SameAt before after location location
  file : ∀ bytes, before.bytesAt? (directory ++ [previous]) = some bytes →
    settings.supports ⟨previous⟩ ∧ settings.supports ⟨name⟩
  package : directory ++ [previous] ∈ before.directories →
    settings.excludedDirs.contains previous = false ∧ settings.excludedDirs.contains name = false

/-- A relative path of names, the last one apart. -/
def Path.Leads (relative : Path) (names : List String) (name : String) : Prop :=
  relative.components = (names ++ [name]).map .name

/-- An event tells of one change strictly below a project. -/
inductive FileEvent.Tells (settings : Settings) (project : Path) (before after : MemoryFiles) :
    FileEvent → Prop
  | created {relative : Path} {names : List String} {name : String}
      (leads : relative.Leads names name)
      (appears : Appears before after (project.location ++ names) name) :
      Tells settings project before after (.created (project.join relative))
  | copied {source relative : Path} {names : List String} {name : String}
      (leads : relative.Leads names name) (supported : settings.supports source)
      (appears : Appears before after (project.location ++ names) name) :
      Tells settings project before after (.copied source (project.join relative))
  | deleted {relative : Path} {names : List String} {name : String}
      (leads : relative.Leads names name)
      (vanishes : Vanishes before after (project.location ++ names) name) :
      Tells settings project before after (.deleted (project.join relative))
  | contentChanged {relative : Path} {names : List String} {name : String}
      (leads : relative.Leads names name) (supported : settings.supports ⟨name⟩)
      (rewritten : Rewritten before after (project.location ++ names ++ [name])) :
      Tells settings project before after (.contentChanged (project.join relative))
  | moved {source target : Path} {names targetNames : List String} {name targetName : String}
      (leads : source.Leads names name) (targetLeads : target.Leads targetNames targetName)
      (moves : Moves before after (project.location ++ names) name
        (project.location ++ targetNames) targetName) :
      Tells settings project before after (.moved (project.join source) (project.join target))
  | renamed {relative : Path} {names : List String} {previous name last : String}
      (leads : relative.Leads names last) (either : last = previous ∨ last = name)
      (renames : Renames settings before after (project.location ++ names) previous name) :
      Tells settings project before after (.renamed (project.join relative) previous name)

/-- What holds of the files at every point: nothing is kept from being read, source files are
recognised, no name of a file or directory below the project belongs to anything else that counts,
and there are fewer bytes than a counter can count. -/
structure Settings.Orderly (settings : Settings) (project : Path) (files : MemoryFiles) : Prop where
  built : files.Built
  undenied : files.denied = []
  legible : settings.Legible project files
  alone : ∀ names name, files.Holds (project.location ++ names ++ [name]) →
    (survey settings files project.location).Sole project.fileName names name
  fits : files.size < 2 ^ 63

namespace MemoryFiles

variable {settings : Settings} {before after files : MemoryFiles} {here : Location}
  {names changed : List String} {name : String}

/-- What is the same but under some names has the same terrain but under these names. -/
theorem survey_agree (elsewhere : ∀ location,
    (∀ name ∈ changed, ¬here ++ names ++ [name] <+: location) →
      SameAt before after location location) :
    (survey settings before here).AgreeApart (survey settings after here) names changed := by
  intro place apart
  refine (survey_congr fun lower within => elsewhere _ fun name member under => ?_).symm
  rw [List.append_assoc, List.prefix_append_right_inj] at under
  exact apart name member (under.trans within)

/-- A directory counts as a package or not at all. -/
theorem package_of_directory (directory : here ++ names ∈ files.directories)
    (present : survey settings files here names ≠ none) :
    survey settings files here names = some .package := by
  obtain ⟨ground, found⟩ := Option.ne_none_iff_exists'.mp present
  rcases survey_eq_some found with ⟨rfl, -⟩ | ⟨_, _, -, noDirectory, -⟩
  · exact found
  · exact absurd directory noDirectory

/-- There is nothing to count where nothing is held. -/
theorem survey_of_not_holds (absent : ¬files.Holds (here ++ names ++ [name])) :
    survey settings files here (names ++ [name]) = none := by
  by_contra present
  exact absent (List.append_assoc here names [name] ▸ holds_of_survey present)

end MemoryFiles

/-! ### New names -/

/-- What is recognised in a file does not depend on the name of the file. -/
theorem Source.recognize_name {fileName contents : String} {entry : Entry}
    (recognized : recognize fileName contents = .ok (some entry)) (name : String) :
    recognize name contents = .ok (some { entry with name }) := by
  unfold recognize at recognized ⊢
  split at recognized
  · cases recognized
  · next types _ =>
    obtain ⟨classes, each, rest⟩ := Fault.bind_eq_ok.mp recognized
    obtain ⟨made, built, same⟩ := Fault.bind_eq_ok.mp rest
    obtain rfl : made = entry := Option.some.inj (Except.ok.inj same)
    obtain ⟨functions, totalled, sameEntry⟩ := Fault.bind_eq_ok.mp built
    obtain rfl := Except.ok.inj sameEntry
    exact Fault.bind_eq_ok.mpr ⟨classes, each, Fault.bind_eq_ok.mpr
      ⟨_, Fault.bind_eq_ok.mpr ⟨functions, totalled, rfl⟩, rfl⟩⟩

private theorem Outline.ofEntry_renamed (entry : Entry) (name : String) :
    ofEntry { entry with name } =
      ⟨{ (ofEntry entry).label with name }, (ofEntry entry).children⟩ := by
  obtain ⟨_ | _, entryName, counts, nested⟩ := entry <;> simp

/-- What goes by another name in a package is depicted as before, under the other name. -/
theorem Renames.depicts {settings : Settings} {before after : MemoryFiles} {here : Location}
    {names : List String} {previous name : String} {target : Outline}
    (renames : Renames settings before after (here ++ names) previous name)
    (package : survey settings before here names = some .package)
    (still : survey settings after here names = some .package)
    (depicts : (survey settings before here).Depicts .package (names ++ [previous]) target) :
    (survey settings after here).Depicts .package (names ++ [name])
      ⟨{ target.label with name }, target.children⟩ := by
  have oldAt : ∀ lower, survey settings before here (names ++ lower) =
      survey settings before (here ++ names) lower := fun _ => MemoryFiles.survey_append package
  have newAt : ∀ lower, survey settings after here (names ++ lower) =
      survey settings after (here ++ names) lower := fun _ => MemoryFiles.survey_append still
  by_cases directory : here ++ names ++ [previous] ∈ before.directories
  · have newDirectory : here ++ names ++ [name] ∈ after.directories :=
      (renames.carried []).directory.mp directory
    obtain ⟨included, newIncluded⟩ := renames.package directory
    have same : ∀ lower, survey settings after here (names ++ [name] ++ lower) =
        survey settings before here (names ++ [previous] ++ lower) := by
      intro lower
      rw [List.append_assoc, List.append_assoc, oldAt, newAt, List.singleton_append,
        List.singleton_append, survey, survey, if_pos directory, if_pos newDirectory,
        included, newIncluded]
      refine (MemoryFiles.survey_congr fun further _ => ?_).symm
      rw [List.append_assoc (here ++ names), List.append_assoc (here ++ names)]
      exact renames.carried further
    have newCounts := MemoryFiles.survey_directory still newDirectory newIncluded
    obtain ⟨isPackage, inside, sum⟩ :=
      (Terrain.depicts_package newCounts).mp (depicts.congr same)
    exact (Terrain.depicts_package newCounts).mpr ⟨isPackage, inside, sum⟩
  · have noDirectory : here ++ names ++ [name] ∉ after.directories :=
      fun there => directory ((renames.carried []).directory.mpr there)
    have ground := oldAt [previous]
    have newGround := newAt [name]
    rw [survey, if_neg directory, if_pos rfl] at ground
    rw [survey, if_neg noDirectory, if_pos rfl] at newGround
    obtain ⟨found, counts⟩ := Option.ne_none_iff_exists'.mp depicts.present
    obtain ⟨bytes, contents, entry, contained, text, recognized, rfl⟩ :=
      MemoryFiles.sourceAt?_eq_some (ground.symm.trans counts)
    obtain rfl := depicts.eq_ofEntry counts
    have newContained : after.bytesAt? (here ++ names ++ [name]) = some bytes :=
      (renames.carried []).bytes.symm.trans contained
    rw [MemoryFiles.sourceAt?, if_pos (renames.file bytes contained).2, newContained,
      Option.bind_some, text] at newGround
    simp only [Source.recognize_name recognized] at newGround
    rw [← Outline.ofEntry_renamed]
    exact .source newGround

/-- A package goes by the name of the directory of each path in it. -/
theorem Path.At.scope {project path : Path} {names : List String} {name : String}
    (here : project.At (names ++ [name]) path) (named : project.fileName?.isSome) :
    path.parentName? = some (Terrain.scope project.fileName names) := by
  obtain ⟨top, ends⟩ := Option.isSome_iff_exists.mp named
  rw [here.parentName?, Terrain.scope, Path.fileName, ends]
  cases names.getLast? <;> rfl

/-- A relative path that leads to a name leads there from the project. -/
theorem Path.Leads.at_join {project relative : Path} {names : List String} {name : String}
    (leads : relative.Leads names name) (named : project.fileName?.isSome) :
    project.At (names ++ [name]) (project.join relative) := by
  obtain ⟨top, ends⟩ := Option.isSome_iff_exists.mp named
  exact ⟨Path.components_join (Settings.location_ne_nil ends).1 leads⟩

namespace Settings

variable {settings : Settings} {project : Path} {files before after : MemoryFiles}
  {names : List String} {name : String}

/-- What is below the project is in a directory. -/
theorem Orderly.parent (orderly : settings.Orderly project files)
    (named : project.fileName?.isSome) (held : files.Holds (project.location ++ names ++ [name])) :
    project.location ++ names ∈ files.directories := by
  obtain ⟨top, ends⟩ := Option.isSome_iff_exists.mp named
  exact (orderly.built.closed _ name (by simp [(location_ne_nil ends).2]) held).1

/-- The names of directories below the project belong to nothing else. -/
theorem Orderly.known (orderly : settings.Orderly project files)
    (directory : project.location ++ names ∈ files.directories) :
    (survey settings files project.location).Known project.fileName names := by
  rintro upper last rfl
  refine orderly.alone upper last (.inl ?_)
  rwa [List.append_assoc]

/-- Whatever is below the project can be read. -/
theorem Orderly.reads {path : Path} (orderly : settings.Orderly project files)
    (here : project.At (names ++ [name]) path) :
    ∃ read, settings.read files.view path = .ok read := by
  obtain ⟨read, done, -⟩ := read_ends orderly.legible orderly.built.closed orderly.undenied
    orderly.fits here
  exact ⟨read, done⟩

/-- The project can be scanned. -/
theorem Orderly.scan (orderly : settings.Orderly project files)
    (modules : settings.modules = []) (named : project.fileName?.isSome)
    (root : project.location ∈ files.directories) :
    ∃ entry, settings.scan files.view project = .ok (.ok entry) :=
  scan_ends orderly.legible orderly.built.closed orderly.undenied orderly.fits named modules root

/-- Whatever depicts the project is in words, as the scan is. -/
theorem Orderly.words (orderly : settings.Orderly project files)
    (modules : settings.modules = []) (named : project.fileName?.isSome)
    (root : project.location ∈ files.directories) (later : Outline)
    (depicts : (survey settings files project.location).Depicts .module [] later) :
    later.label.counts.inRange := by
  obtain ⟨entry, scanned⟩ := orderly.scan modules named root
  obtain ⟨-, -, kind, words, anew⟩ :=
    scan_depicts orderly.built.closed orderly.undenied modules named scanned
  have package := (MemoryFiles.survey_regular settings root).root
  obtain ⟨laterKind, inside, counts⟩ := (Terrain.depicts_package package).mp depicts
  have renamed : (survey settings files project.location).Depicts .module []
      ⟨{ later.label with name := (Outline.ofEntry entry).label.name }, later.children⟩ :=
    (Terrain.depicts_package package).mpr ⟨laterKind, inside, counts⟩
  have same := congrArg Facts.counts (renamed.alike anew rfl).1
  obtain ⟨_, entryName, entryCounts, nested⟩ := entry
  obtain rfl := kind
  rw [Outline.ofEntry_branch] at same
  exact same ▸ words

/-- In a package, a source file that is no directory counts. -/
theorem Orderly.counted (orderly : settings.Orderly project files) {bytes : ByteArray}
    (package : survey settings files project.location names = some .package)
    (contained : files.bytesAt? (project.location ++ names ++ [name]) = some bytes)
    (supported : settings.supports ⟨name⟩) :
    survey settings files project.location (names ++ [name]) = none ↔
      project.location ++ names ++ [name] ∈ files.directories ∧
        settings.excludedDirs.contains name = true := by
  rw [MemoryFiles.survey_append package, survey]
  by_cases directory : project.location ++ names ++ [name] ∈ files.directories
  · rw [if_pos directory]
    by_cases excluded : settings.excludedDirs.contains name = true
    · rw [if_pos excluded]
      exact iff_of_true rfl ⟨directory, excluded⟩
    · rw [if_neg excluded, survey, if_pos directory]
      exact iff_of_false (Option.some_ne_none _) fun both => excluded both.2
  · obtain ⟨contents, entry, text, recognized⟩ :=
      orderly.legible names name bytes contained supported
    rw [if_neg directory, if_pos rfl, MemoryFiles.sourceAt?, if_pos supported, contained,
      Option.bind_some, text]
    simp only [recognized]
    exact iff_of_false (Option.some_ne_none _) fun both => directory both.1

end Settings

end CodeCensus

import CodeCensus.Proofs.Survey

/-!
# Readings depict the terrain

What is read at a path below a project depicts what counts there, and nothing is read where nothing
counts. The number of levels of a reading exceeds every location, so it never ends a reading early.
A scan depicts the whole terrain of the project.
-/

namespace CodeCensus

open MemoryFiles (survey)

/-- What is read at a place is what counts there. -/
def Terrain.ReadsAs (terrain : Terrain) (names : List String) (name : String) :
    Option Entry → Prop
  | none => terrain (names ++ [name]) = none
  | some entry => entry.name = name ∧
      terrain.Depicts .package (names ++ [name]) (Outline.ofEntry entry)

/-- Readings of different names have different names. -/
theorem Terrain.ReadsAs.sublist {terrain : Terrain} {names listed : List String}
    {entries : List (Option Entry)}
    (each : List.Forall₂ (fun name read => terrain.ReadsAs names name read) listed entries) :
    ((entries.filterMap id).map Entry.name).Sublist listed := by
  induction each with
  | nil => exact .slnil
  | @cons name read _ _ reads _ inductionHypothesis =>
    cases read with
    | none => exact inductionHypothesis.cons name
    | some entry =>
      obtain ⟨rfl, -⟩ := reads
      exact inductionHypothesis.cons_cons _

namespace Path

/-- Support depends on the last name only. -/
theorem supports_eq {settings : Settings} {path : Path} {name : String} (isName : IsName name)
    (named : path.fileName? = some name) : settings.supports path = settings.supports ⟨name⟩ := by
  have single : fileName? ⟨name⟩ = some name := by
    simp [fileName?, components_of_isName isName, Component.name?]
  simp [Settings.supports, hasExtension, extension?, named, single]

end Path

namespace Settings

variable {settings : Settings} {files : MemoryFiles} {project path : Path} {names : List String}
  {name : String} {entry : Entry}

/-- A project that ends in a name has components and a location. -/
theorem location_ne_nil {top : String} (ends : project.fileName? = some top) :
    project.components ≠ [] ∧ project.location ≠ [] := by
  obtain ⟨last, found, named⟩ := Option.bind_eq_some_iff.mp ends
  obtain ⟨upper, same⟩ := List.getLast?_eq_some_iff.mp found
  cases last with
  | name text =>
    constructor
    · simp [same]
    · rw [Path.location, same, List.foldl_append]
      simp [Location.extend]
  | _ => cases named

/-- A project that ends in a name goes by it. -/
theorem projectName_eq {top : String} (ends : project.fileName? = some top) :
    projectName project = project.fileName := by
  have isName : IsName top := by
    obtain ⟨last, found, named⟩ := Option.bind_eq_some_iff.mp ends
    cases last with
    | name text =>
      obtain rfl := Option.some.inj named
      exact Path.isName_of_mem_components (List.mem_of_getLast? found)
    | _ => cases named
  have notEmpty : top.isEmpty = false := by
    rw [String.isEmpty_eq_false_iff]
    exact fun empty => isName.1 (by simp [empty])
  simp [projectName, Path.fileName, ends, notEmpty]

/-- Readings of all that a listing names are what counts in the directory. -/
theorem inside_of_listing {compute : Path → Except Fault (Option Entry)}
    {entries : List (Option Entry)}
    (listed : ((files.childNames (project.location ++ names)).map fun name =>
      path.join ⟨name⟩).mapM compute = .ok entries)
    (each : ∀ name read, files.Holds (project.location ++ names ++ [name]) →
      compute (path.join ⟨name⟩) = .ok read →
      (survey settings files project.location).ReadsAs names name read) :
    (survey settings files project.location).Inside names
      ((entries.filterMap id).map Outline.ofEntry) := by
  have readOf : ∀ name, files.Holds (project.location ++ names ++ [name]) → ∃ read ∈ entries,
      (survey settings files project.location).ReadsAs names name read := by
    intro name held
    obtain ⟨read, member, done⟩ := Fault.mapM_mem listed
      (List.mem_map.mpr ⟨name, MemoryFiles.mem_childNames.mpr held, rfl⟩)
    exact ⟨read, member, each name read held done⟩
  have sourceOf : ∀ read ∈ entries, ∃ name,
      (survey settings files project.location).ReadsAs names name read := by
    intro read member
    obtain ⟨_, itemMember, done⟩ := Fault.mapM_source listed member
    obtain ⟨name, nameMember, rfl⟩ := List.mem_map.mp itemMember
    exact ⟨name, each name read (MemoryFiles.mem_childNames.mp nameMember) done⟩
  have sameNames : ((entries.filterMap id).map Outline.ofEntry).map
      (fun child => child.label.name) = (entries.filterMap id).map Entry.name := by
    rw [List.map_map]
    exact List.map_congr_left fun entry _ => Outline.ofEntry_name entry
  have paired : List.Forall₂ (fun name read =>
      (survey settings files project.location).ReadsAs names name read)
      (files.childNames (project.location ++ names)) entries := by
    have members := (List.forall₂_and_left _ _).mpr
      ⟨fun _ member => member, List.forall₂_map_left_iff.mp (Fault.mapM_eq_ok.mp listed)⟩
    exact members.imp fun name read ⟨member, done⟩ =>
      each name read (MemoryFiles.mem_childNames.mp member) done
  refine ⟨?_, fun name => ?_, fun child member => ?_⟩
  · rw [sameNames]
    exact (Terrain.ReadsAs.sublist paired).nodup (MemoryFiles.nodup_childNames _ _)
  · constructor
    · intro present
      have held := MemoryFiles.holds_of_survey present
      rw [← List.append_assoc] at held
      obtain ⟨read, member, reads⟩ := readOf name held
      cases read with
      | none => exact absurd reads present
      | some entry =>
        refine ⟨Outline.ofEntry entry, ?_, by rw [Outline.ofEntry_name, reads.1]⟩
        exact List.mem_map_of_mem (List.mem_filterMap.mpr ⟨_, member, rfl⟩)
    · rintro ⟨child, member, rfl⟩
      obtain ⟨entry, entryMember, rfl⟩ := List.mem_map.mp member
      obtain ⟨_, readMember, rfl⟩ := List.mem_filterMap.mp entryMember
      obtain ⟨name, named, depicts⟩ := sourceOf _ readMember
      rw [Outline.ofEntry_name, named]
      exact depicts.present
  · obtain ⟨entry, entryMember, rfl⟩ := List.mem_map.mp member
    obtain ⟨_, readMember, rfl⟩ := List.mem_filterMap.mp entryMember
    obtain ⟨name, named, depicts⟩ := sourceOf _ readMember
    rw [Outline.ofEntry_name, named]
    exact depicts

/-- The counters of a package sum up what is read inside. -/
theorem aggregate_depicts {terrain : Terrain} {kind : BranchKind} {nested : List Entry}
    {package : Entry} (plain : Kind.leavesRemainder (.branch kind) = false)
    (here : terrain names = some .package) (sound : ∀ inner ∈ nested, Outline.Sound inner)
    (inside : terrain.Inside names (nested.map Outline.ofEntry))
    (made : Entry.aggregate (.branch kind) name nested = .ok package) :
    package.name = name ∧ terrain.Depicts kind names (Outline.ofEntry package) := by
  obtain ⟨named, -, soundPackage, -⟩ := Entry.aggregate_sound plain sound made
  obtain ⟨counts, totalled, same⟩ := Fault.bind_eq_ok.mp made
  obtain rfl : Entry.mk (.branch kind) name counts nested = package := Except.ok.inj same
  have balanced := soundPackage.1
  rw [Outline.ofEntry_branch] at balanced ⊢
  exact ⟨named, (Terrain.depicts_package here).mpr
    ⟨rfl, inside, (Outline.balanced_branch.mp balanced).1⟩⟩

/-- Where nothing is denied, a file is read as what is recognised in its bytes. -/
theorem readFile_view (undenied : files.denied = []) (isName : IsName name)
    (named : path.fileName? = some name) : settings.readFile files.view path =
      if settings.supports ⟨name⟩ then
        match files.bytesAt? path.location with
        | none => .ok none
        | some bytes =>
          match textOfBytes bytes with
          | .ok contents => Source.recognize name contents
          | .error _ => .ok none
      else .ok none := by
  have fileName : path.fileName = name := by simp [Path.fileName, named]
  rw [readFile, Path.supports_eq isName named, fileName]
  by_cases supported : settings.supports ⟨name⟩
  · rw [if_pos supported, supported, Bool.and_true]
    cases contained : files.bytesAt? path.location with
    | none => simp [MemoryFiles.view, contained]
    | some bytes =>
      cases text : textOfBytes bytes <;> simp [MemoryFiles.view, contained, undenied, text]
  · rw [if_neg supported, Bool.eq_false_iff.mpr supported, Bool.and_false]
    rfl

/-- A reading of a file finds what the file counts as. -/
theorem readFile_reads {terrain : Terrain} {read : Option Entry} (undenied : files.denied = [])
    (isName : IsName name) (named : path.fileName? = some name)
    (ground : terrain (names ++ [name]) = files.sourceAt? settings path.location name)
    (done : settings.readFile files.view path = .ok read) : terrain.ReadsAs names name read := by
  rw [readFile_view undenied isName named] at done
  rw [MemoryFiles.sourceAt?] at ground
  by_cases supported : settings.supports ⟨name⟩
  · rw [if_pos supported] at done ground
    cases contained : files.bytesAt? path.location with
    | none =>
      rw [contained] at done ground
      obtain rfl := Except.ok.inj done
      exact ground
    | some bytes =>
      rw [contained] at done ground
      rw [Option.bind_some] at ground
      cases text : textOfBytes bytes with
      | error _ =>
        simp only [text] at done ground
        obtain rfl := Except.ok.inj done
        exact ground
      | ok contents =>
        simp only [text] at done ground
        simp only [done] at ground
        cases read with
        | none => exact ground
        | some entry => exact ⟨(Source.recognize_sound done).1, .source ground⟩
  · rw [if_neg supported] at done ground
    obtain rfl := Except.ok.inj done
    exact ground

/-- A reading below a package of the project finds what counts there. -/
theorem readLevels_reads {levels : Nat} {read : Option Entry} (closed : files.Closed)
    (undenied : files.denied = []) (here : project.At (names ++ [name]) path)
    (above : survey settings files project.location names = some .package)
    (deep : files.longest < path.location.length + levels)
    (done : settings.readLevels files.view levels path = .ok read) :
    (survey settings files project.location).ReadsAs names name read := by
  induction levels generalizing names name path read with
  | zero =>
    obtain rfl := Except.ok.inj done
    -- A location deeper than all that is known holds nothing.
    by_contra present
    have length := MemoryFiles.length_le_longest (MemoryFiles.holds_of_survey present)
    rw [← here.location] at length
    exact absurd length (Nat.not_le.mpr deep)
  | succ levels inductionHypothesis =>
    have location : path.location = project.location ++ names ++ [name] := by
      rw [here.location, List.append_assoc]
    have fileName := here.fileName
    have single : survey settings files project.location (names ++ [name]) =
        survey settings files (project.location ++ names) [name] := MemoryFiles.survey_append above
    unfold readLevels excludes at done
    by_cases directory : project.location ++ names ++ [name] ∈ files.directories
    · have isDirectory : files.view.isDirectory path = true :=
        MemoryFiles.isDirectory_view.mpr (location ▸ directory)
      rw [isDirectory, fileName, Bool.true_and] at done
      split at done
      · next excluded =>
        obtain rfl := Except.ok.inj done
        rw [Terrain.ReadsAs, single, survey, if_pos directory, if_pos excluded]
      · next included =>
        have package : survey settings files project.location (names ++ [name]) =
            some .package :=
          MemoryFiles.survey_directory above directory (Bool.eq_false_iff.mpr included)
        have listed := MemoryFiles.list_view undenied (MemoryFiles.isDirectory_view.mp isDirectory)
        rw [if_pos rfl, listed, here.location] at done
        obtain ⟨entries, each, rest⟩ := Fault.bind_eq_ok.mp done
        obtain ⟨made, aggregated, same⟩ := Fault.bind_eq_ok.mp rest
        obtain rfl := Except.ok.inj same
        refine aggregate_depicts rfl package (fun inner member => ?_) ?_ aggregated
        · obtain ⟨_, found, rfl⟩ := List.mem_filterMap.mp member
          obtain ⟨_, -, wasRead⟩ := Fault.mapM_source each found
          exact (readLevels_sound wasRead).2.2
        · refine inside_of_listing each fun child inner held wasRead => ?_
          rw [← List.append_assoc] at held
          have isName := (closed _ child (by simp) held).2
          have below := here.join isName
          refine inductionHypothesis below package ?_ wasRead
          rw [below.location, ← List.append_assoc, ← here.location, List.length_append,
            List.length_singleton]
          omega
    · have isDirectory : files.view.isDirectory path = false := by
        rwa [Bool.eq_false_iff, ne_eq, MemoryFiles.isDirectory_view, location]
      have isName := here.isName
      have ground : survey settings files project.location (names ++ [name]) =
          files.sourceAt? settings path.location name := by
        rw [single, survey, if_neg directory, if_pos rfl, location]
      rw [isDirectory] at done
      simp only [Bool.false_and, Bool.false_eq_true, if_false] at done
      exact readFile_reads undenied isName here.fileName? ground done

/-- What is read from a path is what the survey has there. -/
theorem read_reads {read : Option Entry} (closed : files.Closed) (undenied : files.denied = [])
    (here : project.At (names ++ [name]) path)
    (above : survey settings files project.location names = some .package)
    (done : settings.read files.view path = .ok read) :
    (survey settings files project.location).ReadsAs names name read := by
  refine readLevels_reads closed undenied here above ?_ done
  change files.longest < _ + (files.longest + 1 + 1)
  omega

/-- A scan without configured modules depicts the terrain of the project under its name. -/
theorem scan_depicts (closed : files.Closed) (undenied : files.denied = [])
    (modules : settings.modules = []) (named : project.fileName?.isSome)
    (done : settings.scan files.view project = .ok (.ok entry)) :
    project.location ∈ files.directories ∧ entry.name = project.fileName ∧ entry.kind = .module ∧
      entry.counts.inRange ∧
      (survey settings files project.location).Depicts .module [] (Outline.ofEntry entry) := by
  obtain ⟨top, ends⟩ := Option.isSome_iff_exists.mp named
  obtain ⟨-, located⟩ := location_ne_nil ends
  obtain ⟨entryName, kind, -, words⟩ := scan_sound done
  rw [projectName_eq ends] at entryName
  unfold scan at done
  split at done
  · cases done
  · split at done
    · cases done
    · next isDirectory =>
      have root : project.location ∈ files.directories :=
        MemoryFiles.isDirectory_view.mp (by simpa using isDirectory)
      have package : survey settings files project.location [] = some .package := by
        rw [survey, if_pos root]
      have listed := MemoryFiles.list_view undenied root
      rw [← List.append_nil project.location] at listed
      rw [readTop, if_pos (by simp [modules]), readChildren, listed] at done
      obtain ⟨top, read, rest⟩ := Fault.bind_eq_ok.mp done
      obtain ⟨entries, each, same⟩ := Fault.bind_eq_ok.mp read
      obtain rfl := Except.ok.inj same
      obtain ⟨made, aggregated, sameEntry⟩ := Fault.bind_eq_ok.mp rest
      obtain rfl : made = entry := Except.ok.inj (Except.ok.inj sameEntry)
      refine ⟨root, entryName, kind, words, ?_⟩
      refine (aggregate_depicts rfl package (fun inner member => ?_) ?_ aggregated).2
      · obtain ⟨_, found, rfl⟩ := List.mem_filterMap.mp member
        obtain ⟨_, -, wasRead⟩ := Fault.mapM_source each found
        exact (read_sound wasRead).2.2
      · refine inside_of_listing each fun child inner held wasRead => ?_
        have isName := (closed _ child (by simpa using located) held).2
        have top : project.At [] project := ⟨by simp⟩
        exact read_reads closed undenied (top.join isName) package wasRead

end Settings

end CodeCensus

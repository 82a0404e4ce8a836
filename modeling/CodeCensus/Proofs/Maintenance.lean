import CodeCensus.Project.Session
import CodeCensus.Proofs.Evolution
import CodeCensus.Proofs.FileChange

/-!
# Maintenance equals a new scan

A session keeps up with its files. After any run of single changes below the project, each told by
its event, every event ends well, and the live tree shows what a new scan finds, siblings in any
order.
-/

namespace CodeCensus

open MemoryFiles (survey)

namespace Tree

variable {tree : Tree} {shape : Rose Handle} {outline : Outline} {top : String}
  {terrain after : Terrain}

/-- What a tree shows tracks a terrain. -/
def Follows (tree : Tree) (top : String) (terrain : Terrain) : Prop :=
  ∃ shape outline, tree.Shows shape outline ∧ terrain.Tracks top outline

/-- A mutation ends well, with a tree that follows a terrain. -/
def Reaches (done : Except Fault Outcome) (top : String) (terrain : Terrain) : Prop :=
  ∃ outcome, done = .ok outcome ∧ outcome.result = .ok () ∧ outcome.tree.Follows top terrain

/-- A tree goes where its outline is led. -/
theorem Shows.reaches {mutation : Mutation} (shows : tree.Shows shape outline)
    (leads : Terrain.LeadsTo outline mutation top after) :
    Reaches (tree.mutate mutation) top after := by
  obtain ⟨fits, later, planned, tracks⟩ := leads
  obtain ⟨realized, total⟩ := shows.mutate mutation
  obtain ⟨outcome, done⟩ := total fits
  obtain ⟨result, ⟨laterShape, laterShows⟩, -⟩ := realized outcome done
  rw [planned] at result laterShows
  exact ⟨outcome, done, result, laterShape, later, laterShows, tracks⟩

end Tree

namespace Session

open CodeCensus.Tree (Follows Reaches)

variable {settings : Settings} {project relative : Path} {before after : MemoryFiles} {tree : Tree}
  {terrain : Terrain} {names : List String} {name : String}

/-- What is new at a path is added where its directory counts. -/
theorem addPath_reaches (modules : settings.modules = []) (named : project.fileName?.isSome)
    (orderly : settings.Orderly project after) (root : project.location ∈ after.directories)
    (regular : terrain.Regular) (follows : tree.Follows project.fileName terrain)
    (known : terrain.Known project.fileName names)
    (place : terrain names ≠ none → terrain names = some .package)
    (agree : terrain.AgreeApart (survey settings after project.location) names [name])
    (free : terrain (names ++ [name]) = none) (leads : relative.Leads names name) :
    Reaches (addPath settings after.view tree (project.join relative)) project.fileName
      (survey settings after project.location) := by
  obtain ⟨shape, outline, shows, tracks⟩ := follows
  have here := leads.at_join named
  obtain ⟨read, done⟩ := orderly.reads here
  have afterRegular := MemoryFiles.survey_regular settings root
  have reads : terrain names = some .package →
      (survey settings after project.location).ReadsAs names name read := fun package =>
    Settings.read_reads orderly.built.closed orderly.undenied here
      ((agree.outside (.inl rfl)).trans package) done
  unfold addPath
  rw [here.scope named]
  simp only [done]
  cases read with
  | none =>
    have absent : survey settings after project.location (names ++ [name]) = none := by
      by_contra present
      have package := afterRegular.above names name present
      rw [agree.outside (.inl rfl)] at package
      exact present (reads package)
    refine ⟨_, rfl, rfl, shape, outline, shows, ?_⟩
    rw [agree.eq_of_absent regular afterRegular fun other member =>
      List.mem_singleton.mp member ▸ ⟨free, absent⟩]
    exact tracks
  | some entry =>
    obtain ⟨entryName, -, sound⟩ := Settings.read_sound done
    rw [here.fileName] at entryName
    exact shows.reaches (tracks.create regular afterRegular known place agree
      (orderly.words modules named root) free sound entryName fun package => (reads package).2)

/-- What is gone from a path is removed. -/
theorem removePath_reaches {later : Terrain} (named : project.fileName?.isSome)
    (regular : terrain.Regular) (laterRegular : later.Regular)
    (follows : tree.Follows project.fileName terrain)
    (known : terrain.Known project.fileName names)
    (sole : terrain.Sole project.fileName names name)
    (agree : terrain.AgreeApart later names [name]) (gone : later (names ++ [name]) = none)
    (leads : relative.Leads names name) :
    Reaches (removePath tree (project.join relative)) project.fileName later := by
  obtain ⟨shape, outline, shows, tracks⟩ := follows
  have here := leads.at_join named
  unfold removePath
  rw [here.scope named, here.fileName]
  exact shows.reaches (tracks.delete regular laterRegular known sole agree gone)

/-- What is at a path replaces what was there. -/
theorem updatePath_reaches (modules : settings.modules = []) (named : project.fileName?.isSome)
    (orderly : settings.Orderly project after) (root : project.location ∈ after.directories)
    (regular : terrain.Regular) (follows : tree.Follows project.fileName terrain)
    (known : terrain.Known project.fileName names)
    (sole : terrain.Sole project.fileName names name)
    (agree : terrain.AgreeApart (survey settings after project.location) names [name])
    (same : terrain (names ++ [name]) = none ↔
      survey settings after project.location (names ++ [name]) = none)
    (leads : relative.Leads names name) :
    Reaches (updatePath settings after.view tree (project.join relative)) project.fileName
      (survey settings after project.location) := by
  obtain ⟨shape, outline, shows, tracks⟩ := follows
  have here := leads.at_join named
  obtain ⟨read, done⟩ := orderly.reads here
  have afterRegular := MemoryFiles.survey_regular settings root
  have reads : terrain (names ++ [name]) ≠ none →
      (survey settings after project.location).ReadsAs names name read := fun present =>
    Settings.read_reads orderly.built.closed orderly.undenied here
      ((agree.outside (.inl rfl)).trans (regular.above names name present)) done
  unfold updatePath
  rw [here.scope named]
  simp only [done]
  cases read with
  | none =>
    have absent : terrain (names ++ [name]) = none := by
      by_contra present
      exact present (same.mpr (reads present))
    refine ⟨_, rfl, rfl, shape, outline, shows, ?_⟩
    rw [agree.eq_of_absent regular afterRegular fun other member =>
      List.mem_singleton.mp member ▸ ⟨absent, same.mp absent⟩]
    exact tracks
  | some entry =>
    obtain ⟨entryName, -, sound⟩ := Settings.read_sound done
    rw [here.fileName] at entryName
    exact shows.reaches (tracks.update regular afterRegular known sole agree
      (orderly.words modules named root) sound entryName same.mp fun present => (reads present).2)

/-- A change below a project leaves the project where it is. -/
theorem root_of_tells {event : FileEvent} (tells : event.Tells settings project before after)
    (root : project.location ∈ before.directories) : project.location ∈ after.directories := by
  have above : ∀ (names : List String) (name : String),
      ¬project.location ++ names ++ [name] <+: project.location := by
    intro names name within
    exact absurd within.length_le (by simp)
  cases tells with
  | created _ appears => exact (appears.elsewhere _ (above _ _)).directory.mp root
  | copied _ _ appears => exact (appears.elsewhere _ (above _ _)).directory.mp root
  | deleted _ vanishes => exact (vanishes.elsewhere _ (above _ _)).directory.mp root
  | contentChanged _ _ rewritten =>
    refine (rewritten.elsewhere _ fun same => ?_).directory.mp root
    exact absurd (congrArg List.length same) (by simp)
  | moved _ _ moves => exact (moves.elsewhere _ (above _ _) (above _ _)).directory.mp root
  | renamed _ _ renames => exact (renames.elsewhere _ (above _ _) (above _ _)).directory.mp root

/-- What appears is added. -/
theorem appears_reaches (modules : settings.modules = []) (named : project.fileName?.isSome)
    (orderly : settings.Orderly project before) (afterOrderly : settings.Orderly project after)
    (root : project.location ∈ before.directories) (afterRoot : project.location ∈ after.directories)
    (follows : tree.Follows project.fileName (survey settings before project.location))
    (appears : Appears before after (project.location ++ names) name)
    (leads : relative.Leads names name) :
    Reaches (addPath settings after.view tree (project.join relative)) project.fileName
      (survey settings after project.location) := by
  refine addPath_reaches modules named afterOrderly afterRoot (MemoryFiles.survey_regular settings root)
    follows (orderly.known appears.parent) (MemoryFiles.package_of_directory appears.parent)
    (MemoryFiles.survey_agree fun location apart => ?_)
    (MemoryFiles.survey_of_not_holds appears.free) leads
  exact appears.elsewhere location (apart name (List.mem_singleton_self name))

/-- What vanishes is removed. -/
theorem vanishes_reaches (named : project.fileName?.isSome)
    (orderly : settings.Orderly project before) (root : project.location ∈ before.directories)
    (afterRoot : project.location ∈ after.directories)
    (follows : tree.Follows project.fileName (survey settings before project.location))
    (vanishes : Vanishes before after (project.location ++ names) name)
    (leads : relative.Leads names name) :
    Reaches (removePath tree (project.join relative)) project.fileName
      (survey settings after project.location) := by
  have parent := orderly.parent named vanishes.held
  refine removePath_reaches named (MemoryFiles.survey_regular settings root)
    (MemoryFiles.survey_regular settings afterRoot) follows (orderly.known parent)
    (orderly.alone names name vanishes.held) (MemoryFiles.survey_agree fun location apart => ?_)
    (MemoryFiles.survey_of_not_holds vanishes.gone) leads
  exact vanishes.elsewhere location (apart name (List.mem_singleton_self name))

/-- What moves is removed where it was and added where it is. -/
theorem moves_reaches {source target : Path} {targetNames : List String} {targetName : String}
    (modules : settings.modules = []) (named : project.fileName?.isSome)
    (orderly : settings.Orderly project before) (afterOrderly : settings.Orderly project after)
    (root : project.location ∈ before.directories) (afterRoot : project.location ∈ after.directories)
    (follows : tree.Follows project.fileName (survey settings before project.location))
    (moves : Moves before after (project.location ++ names) name (project.location ++ targetNames)
      targetName)
    (leads : source.Leads names name) (targetLeads : target.Leads targetNames targetName) :
    Reaches (apply settings after.view tree (.moved (project.join source) (project.join target)))
      project.fileName (survey settings after project.location) := by
  let middle := (survey settings before project.location).without (names ++ [name])
  have parent := orderly.parent named moves.held
  have regular := MemoryFiles.survey_regular settings root
  have middleRegular : middle.Regular := regular.without (by simp)
  have less : ∀ place, middle place = none ∨
      middle place = survey settings before project.location place :=
    Terrain.without_less _ _
  obtain ⟨removed, taken, well, middleFollows⟩ : Reaches (removePath tree (project.join source))
      project.fileName middle :=
    removePath_reaches named regular middleRegular follows (orderly.known parent)
      (orderly.alone names name moves.held) (Terrain.agree_without _ _ _)
      (Terrain.without_self _ _) leads
  have added : Reaches (addPath settings after.view removed.tree (project.join target))
      project.fileName (survey settings after project.location) := by
    refine addPath_reaches modules named afterOrderly afterRoot middleRegular middleFollows
      (fun upper last same => (orderly.known moves.parent upper last same).anti less) ?_ ?_ ?_
      targetLeads
    · intro present
      rcases less targetNames with absent | same
      · exact absurd absent present
      · rw [same] at present ⊢
        exact MemoryFiles.package_of_directory moves.parent present
    · intro place apart
      by_cases within : names ++ [name] <+: place
      · have absent : middle place = none := if_pos within
        obtain ⟨lower, rfl⟩ := within
        rw [absent]
        exact (MemoryFiles.survey_regular settings afterRoot).nothing_below
          (MemoryFiles.survey_of_not_holds moves.gone) lower
      · have kept : middle place = survey settings before project.location place := if_neg within
        rw [kept]
        refine (MemoryFiles.survey_congr fun lower upper => moves.elsewhere _ ?_ ?_).symm
        · rw [List.append_assoc, List.prefix_append_right_inj]
          exact fun under => within (under.trans upper)
        · rw [List.append_assoc, List.prefix_append_right_inj]
          exact fun under => apart targetName (List.mem_singleton_self _) (under.trans upper)
    · rcases less (targetNames ++ [targetName]) with absent | same
      · exact absent
      · exact same.trans (MemoryFiles.survey_of_not_holds moves.free)
  obtain ⟨outcome, done, rest⟩ := added
  refine ⟨outcome, Fault.bind_eq_ok.mpr ⟨removed, taken, ?_⟩, rest⟩
  rw [well]
  exact done

/-- A file with other contents is replaced. -/
theorem rewritten_reaches (modules : settings.modules = []) (named : project.fileName?.isSome)
    (orderly : settings.Orderly project before) (afterOrderly : settings.Orderly project after)
    (root : project.location ∈ before.directories) (afterRoot : project.location ∈ after.directories)
    (follows : tree.Follows project.fileName (survey settings before project.location))
    (supported : settings.supports ⟨name⟩)
    (rewritten : Rewritten before after (project.location ++ names ++ [name]))
    (leads : relative.Leads names name) :
    Reaches (updatePath settings after.view tree (project.join relative)) project.fileName
      (survey settings after project.location) := by
  obtain ⟨bytes, old⟩ := rewritten.old
  obtain ⟨newBytes, new⟩ := rewritten.new
  have parent := orderly.parent named (.inr rewritten.old)
  have agree : (survey settings before project.location).AgreeApart
      (survey settings after project.location) names [name] := by
    refine MemoryFiles.survey_agree fun location apart => rewritten.elsewhere location ?_
    rintro rfl
    exact apart name (List.mem_singleton_self name) (List.prefix_refl _)
  refine updatePath_reaches modules named afterOrderly afterRoot (MemoryFiles.survey_regular settings root)
    follows (orderly.known parent) (orderly.alone names name (.inr rewritten.old)) agree ?_ leads
  by_cases package : survey settings before project.location names = some .package
  · have still := (agree.outside (.inl rfl)).trans package
    rw [orderly.counted package old supported, afterOrderly.counted still new supported,
      rewritten.directory]
  · have other : survey settings after project.location names ≠ some .package := by
      rwa [agree.outside (.inl rfl)]
    refine iff_of_true ?_ ?_
    · by_contra present
      exact package (MemoryFiles.survey_above root present)
    · by_contra present
      exact other (MemoryFiles.survey_above afterRoot present)

/-- What goes by another name is renamed. -/
theorem renames_reaches {previous last : String} (named : project.fileName?.isSome)
    (orderly : settings.Orderly project before) (root : project.location ∈ before.directories)
    (afterRoot : project.location ∈ after.directories)
    (follows : tree.Follows project.fileName (survey settings before project.location))
    (renames : Renames settings before after (project.location ++ names) previous name)
    (leads : relative.Leads names last) :
    Reaches (apply settings after.view tree (.renamed (project.join relative) previous name))
      project.fileName (survey settings after project.location) := by
  have parent := orderly.parent named renames.held
  have regular := MemoryFiles.survey_regular settings root
  have afterRegular := MemoryFiles.survey_regular settings afterRoot
  have agree : (survey settings before project.location).AgreeApart
      (survey settings after project.location) names [previous, name] := by
    refine MemoryFiles.survey_agree fun location apart => renames.elsewhere location ?_ ?_
    · exact apart previous (by simp)
    · exact apart name (by simp)
  obtain ⟨shape, outline, shows, tracks⟩ := follows
  have here := leads.at_join named
  simp only [apply, here.scope named]
  refine shows.reaches (tracks.rename regular afterRegular (orderly.known parent)
    (orderly.alone names previous renames.held) agree (MemoryFiles.survey_of_not_holds renames.gone)
    (MemoryFiles.survey_of_not_holds renames.free) ?_ ?_)
  · intro absent
    by_contra present
    have package : survey settings before project.location names = some .package :=
      (agree.outside (.inl rfl)).symm.trans (afterRegular.above names name present)
    rcases renames.held with directory | ⟨bytes, contained⟩
    · rw [MemoryFiles.survey_directory package directory (renames.package directory).1] at absent
      cases absent
    · have excluded := (orderly.counted package contained (renames.file bytes contained).1).mp absent
      rw [(renames.package excluded.1).1] at excluded
      cases excluded.2
  · intro target depicts
    have package := regular.above names previous depicts.present
    exact renames.depicts package ((agree.outside (.inl rfl)).trans package) depicts

/-- An event that tells of a change brings a tree to the terrain after the change. -/
theorem apply_reaches {event : FileEvent} (modules : settings.modules = [])
    (named : project.fileName?.isSome) (orderly : settings.Orderly project before)
    (afterOrderly : settings.Orderly project after) (root : project.location ∈ before.directories)
    (follows : tree.Follows project.fileName (survey settings before project.location))
    (tells : event.Tells settings project before after) :
    Reaches (apply settings after.view tree event) project.fileName
      (survey settings after project.location) := by
  have afterRoot := root_of_tells tells root
  cases tells with
  | created leads appears =>
    exact appears_reaches modules named orderly afterOrderly root afterRoot follows appears leads
  | copied leads supported appears =>
    simp only [apply, if_pos supported]
    exact appears_reaches modules named orderly afterOrderly root afterRoot follows appears leads
  | deleted leads vanishes =>
    exact vanishes_reaches named orderly root afterRoot follows vanishes leads
  | @contentChanged relative names name leads supported rewritten =>
    have here := leads.at_join named
    have supportedPath : settings.supports (project.join relative) := by
      rwa [Path.supports_eq here.isName here.fileName?]
    simp only [apply, if_pos supportedPath]
    exact rewritten_reaches modules named orderly afterOrderly root afterRoot follows supported
      rewritten leads
  | moved leads targetLeads moves =>
    exact moves_reaches modules named orderly afterOrderly root afterRoot follows moves leads
      targetLeads
  | renamed leads _ renames =>
    exact renames_reaches named orderly root afterRoot follows renames leads

/-- A session is under some settings, and its tree follows the files of a project. -/
structure Current (settings : Settings) (project : Path) (files : MemoryFiles)
    (session : Session) : Prop where
  ruled : session.settings = settings
  root : project.location ∈ files.directories
  follows : session.tree.Follows project.fileName (survey settings files project.location)

/-- An event that tells of a change ends well and leaves a session current. -/
theorem Current.dispatch {session : Session} {event : FileEvent} (modules : settings.modules = [])
    (named : project.fileName?.isSome) (orderly : settings.Orderly project before)
    (afterOrderly : settings.Orderly project after)
    (current : Current settings project before session)
    (tells : event.Tells settings project before after) : ∃ step,
      session.dispatch after.view event = .ok step ∧ step.result = .ok () ∧
      Current settings project after step.session := by
  obtain ⟨outcome, done, well, follows⟩ :=
    apply_reaches modules named orderly afterOrderly current.root current.follows tells
  refine ⟨⟨{ session with tree := outcome.tree }, outcome.result.mapError .tree⟩, ?_, ?_, ?_⟩
  · exact Fault.bind_eq_ok.mpr ⟨outcome, by rw [current.ruled]; exact done, rfl⟩
  · rw [well]
    rfl
  · exact ⟨current.ruled, root_of_tells tells current.root, follows⟩

/-- A new tree follows the files that it is scanned from. -/
theorem freshTree_follows {files : MemoryFiles} (modules : settings.modules = [])
    (named : project.fileName?.isSome) (orderly : settings.Orderly project files)
    (root : project.location ∈ files.directories) : ∃ fresh,
      freshTree settings files.view project = .ok (.ok fresh) ∧
      fresh.Follows project.fileName (survey settings files project.location) := by
  obtain ⟨entry, scanned⟩ := orderly.scan modules named root
  obtain ⟨-, entryName, kind, words, depicts⟩ :=
    Settings.scan_depicts orderly.built.closed orderly.undenied modules named scanned
  obtain ⟨ready, shape, shows⟩ := Tree.ofEntry_shows entry
  have asModule : entry.withKind .module = entry := by
    obtain ⟨_, name, counts, nested⟩ := entry
    obtain rfl := kind
    rfl
  rw [asModule] at shows
  refine ⟨(Tree.ofEntry entry).tree, ?_, shape, _, shows, depicts, ?_, ?_⟩
  · refine Fault.bind_eq_ok.mpr ⟨.ok entry, scanned, ?_⟩
    simp only [ready]
    rfl
  · rw [Outline.ofEntry_name, entryName]
  · obtain ⟨_, name, counts, nested⟩ := entry
    obtain rfl := kind
    rwa [Outline.ofEntry_branch]

/-- The sessions and files that a run of told changes leads to. -/
inductive Maintained (settings : Settings) (project : Path) (first : MemoryFiles)
    (opened : Session) : MemoryFiles → Session → Prop
  | opened : Maintained settings project first opened first opened
  | told {before after : MemoryFiles} {session : Session} {event : FileEvent} {step : Step Unit}
      (earlier : Maintained settings project first opened before session)
      (tells : event.Tells settings project before after)
      (orderly : settings.Orderly project after)
      (dispatched : session.dispatch after.view event = .ok step) :
      Maintained settings project first opened after step.session

private theorem Maintained.current {first files : MemoryFiles} {opened now : Session}
    (modules : settings.modules = []) (named : project.fileName?.isSome)
    (orderly : settings.Orderly project first) (fresh : Current settings project first opened)
    (maintained : Maintained settings project first opened files now) :
    settings.Orderly project files ∧ Current settings project files now := by
  induction maintained with
  | opened => exact ⟨orderly, fresh⟩
  | told _ tells afterOrderly dispatched inductionHypothesis =>
    obtain ⟨beforeOrderly, current⟩ := inductionHypothesis
    obtain ⟨step, done, -, later⟩ :=
      current.dispatch modules named beforeOrderly afterOrderly tells
    obtain rfl := Except.ok.inj (dispatched.symm.trans done)
    exact ⟨afterOrderly, later⟩

/-- A project without configured modules can be opened, and whatever run of told changes follows,
the live tree shows what a new scan finds, siblings in any order, and the next event ends well. -/
theorem maintenance_equals_rescan (settings : Settings) (project : Path) (first : MemoryFiles)
    (modules : settings.modules = []) (named : project.fileName?.isSome)
    (orderly : settings.Orderly project first) (root : project.location ∈ first.directories) :
    ∃ session, start settings first.view project = .ok (.ok session) ∧
      ∀ files now, Maintained settings project first session files now →
        (∃ fresh live anew, freshTree settings files.view project = .ok (.ok fresh) ∧
          now.tree.outline? = some live ∧ fresh.outline? = some anew ∧ live.Alike anew) ∧
        ∀ after event, event.Tells settings project files after →
          settings.Orderly project after → ∃ step,
            now.dispatch after.view event = .ok step ∧ step.result = .ok () := by
  obtain ⟨tree, made, follows⟩ := freshTree_follows modules named orderly root
  refine ⟨⟨settings, project, tree⟩, Fault.bind_eq_ok.mpr ⟨.ok tree, made, rfl⟩, ?_⟩
  intro files now maintained
  obtain ⟨nowOrderly, current⟩ := maintained.current modules named orderly ⟨rfl, root, follows⟩
  constructor
  · obtain ⟨shape, live, shows, tracks⟩ := current.follows
    obtain ⟨fresh, scanned, _, anew, freshShows, anewTracks⟩ :=
      freshTree_follows modules named nowOrderly current.root
    exact ⟨fresh, live, anew, scanned, shows.outline?, freshShows.outline?,
      (tracks.depicts.alike anewTracks.depicts (tracks.named.trans anewTracks.named.symm)).2⟩
  · intro after event tells afterOrderly
    obtain ⟨step, done, well, -⟩ := current.dispatch modules named nowOrderly afterOrderly tells
    exact ⟨step, done, well⟩

/-! ### A first file -/

/-- A project without files. -/
def bareProject : MemoryFiles :=
  MemoryFiles.empty.addDirectory (Path.location ⟨"/p"⟩)

/-- What the first file of a project contains. -/
def firstContents : ByteArray :=
  "class A { void f() {} }".toUTF8

/-- The project with its first file. -/
def begunProject : MemoryFiles :=
  bareProject.addFile (Path.location ⟨"/p/A.java"⟩) firstContents

private theorem projectLocation : Path.location ⟨"/p"⟩ = ["/", "p"] := by decide +kernel

private theorem fileLocation :
    Path.location ⟨"/p/A.java"⟩ = ["/", "p", "A.java"] := by decide +kernel

private theorem begunProject_contents :
    begunProject.contents = [(["/", "p", "A.java"], firstContents)] := by
  simp [begunProject, MemoryFiles.addFile, fileLocation, bareProject, MemoryFiles.addDirectory,
    MemoryFiles.empty]

/-- Nothing is below the project before its first file. -/
theorem bareProject_below (names : List String) (name : String) :
    ¬bareProject.Holds (Path.location ⟨"/p"⟩ ++ names ++ [name]) := by
  have known : bareProject.directories ++ bareProject.contents.map Prod.fst =
      [["/", "p"], ["/"], []] := by decide +kernel
  rw [MemoryFiles.holds_iff, known, projectLocation]
  simp

/-- Nothing but its first file is below the project. -/
theorem begunProject_below {names : List String} {name : String}
    (held : begunProject.Holds (Path.location ⟨"/p"⟩ ++ names ++ [name])) :
    names = [] ∧ name = "A.java" := by
  have known : begunProject.directories ++ begunProject.contents.map Prod.fst =
      [["/", "p"], ["/"], [], ["/", "p", "A.java"]] := by decide +kernel
  rw [MemoryFiles.holds_iff, known, projectLocation] at held
  have whole : names ++ [name] = [] ++ ["A.java"] := by simpa using held
  obtain ⟨rfl, last⟩ := List.append_inj' whole rfl
  exact ⟨rfl, List.singleton_inj.mp last⟩

private theorem bareProject_orderly : Settings.standard.Orderly ⟨"/p"⟩ bareProject where
  built := .addDirectory .empty ⟨"/p"⟩
  undenied := rfl
  legible names name bytes contained :=
    absurd (.inr ⟨bytes, contained⟩) (bareProject_below names name)
  alone names name held := absurd held (bareProject_below names name)
  fits := by decide +kernel

/-- The first file is recognised, and nothing in it is named like the file. -/
theorem firstContents_recognized : ∃ contents entry, textOfBytes firstContents = .ok contents ∧
    Source.recognize "A.java" contents = .ok (some entry) ∧ "A.java" ∉ entry.innerNames := by
  have computed : (textOfBytes firstContents).toOption.any (fun contents =>
      (Source.recognize "A.java" contents).toOption.any fun found =>
        found.any fun entry => decide ("A.java" ∉ entry.innerNames)) = true := by decide +kernel
  obtain ⟨contents, text, rest⟩ := Fault.ok_of_any computed
  obtain ⟨found, recognized, passes⟩ := Fault.ok_of_any rest
  obtain ⟨entry, rfl, apart⟩ := (Option.any_eq_true _ _).mp passes
  exact ⟨contents, entry, text, recognized, of_decide_eq_true apart⟩

private theorem begunProject_orderly : Settings.standard.Orderly ⟨"/p"⟩ begunProject where
  built := .addFile (.addDirectory .empty ⟨"/p"⟩) ⟨"/p/A.java"⟩ firstContents
  undenied := rfl
  legible names name bytes contained _ := by
    obtain ⟨rfl, rfl⟩ := begunProject_below (.inr ⟨bytes, contained⟩)
    obtain rfl : firstContents = bytes := by
      simpa [MemoryFiles.bytesAt?, begunProject_contents, projectLocation] using contained
    obtain ⟨contents, entry, text, recognized, -⟩ := firstContents_recognized
    exact ⟨contents, entry, text, recognized⟩
  alone names name held := by
    obtain ⟨rfl, rfl⟩ := begunProject_below held
    refine ⟨by decide +kernel, fun upper present => ?_, fun place entry source => ?_⟩
    · have there := MemoryFiles.holds_of_survey present
      rw [← List.append_assoc] at there
      exact (begunProject_below there).1
    · rcases MemoryFiles.survey_eq_some source with ⟨impossible, -⟩ | ⟨upper, name, rfl, -, found⟩
      · cases impossible
      · have there := MemoryFiles.holds_of_survey (source ▸ Option.some_ne_none _)
        rw [← List.append_assoc] at there
        obtain ⟨rfl, rfl⟩ := begunProject_below there
        obtain ⟨bytes, contents, entry, contained, text, recognized, same⟩ :=
          MemoryFiles.sourceAt?_eq_some found
        cases same
        obtain rfl : firstContents = bytes := by
          simpa [MemoryFiles.bytesAt?, begunProject_contents, projectLocation] using contained
        obtain ⟨otherContents, other, otherText, otherRecognized, apart⟩ := firstContents_recognized
        obtain rfl := Except.ok.inj (text.symm.trans otherText)
        obtain rfl := Option.some.inj (Except.ok.inj (recognized.symm.trans otherRecognized))
        exact apart
  fits := by decide +kernel

private theorem projects_same {location : Location}
    (apart : ¬Path.location ⟨"/p"⟩ ++ [] ++ ["A.java"] <+: location) :
    MemoryFiles.SameAt bareProject begunProject location location := by
  have sameDirectories : bareProject.directories = begunProject.directories := by decide +kernel
  refine ⟨by rw [sameDirectories], ?_⟩
  have other : ["/", "p", "A.java"] ≠ location := by
    rintro rfl
    rw [projectLocation] at apart
    exact apart (List.prefix_refl _)
  have nothing : bareProject.contents = [] := rfl
  simp [MemoryFiles.bytesAt?, begunProject_contents, nothing, other]

/-- The first file of a project is added, as a new scan would, and can be taken away again. -/
theorem first_file_is_maintained : ∃ session step,
    start .standard bareProject.view ⟨"/p"⟩ = .ok (.ok session) ∧
    session.dispatch begunProject.view (.created (Path.join ⟨"/p"⟩ ⟨"A.java"⟩)) = .ok step ∧
    (∃ fresh live anew, freshTree .standard begunProject.view ⟨"/p"⟩ = .ok (.ok fresh) ∧
      step.session.tree.outline? = some live ∧ fresh.outline? = some anew ∧ live.Alike anew) ∧
    ∃ last, step.session.dispatch bareProject.view
      (.deleted (Path.join ⟨"/p"⟩ ⟨"A.java"⟩)) = .ok last ∧ last.result = .ok () := by
  have leads : Path.Leads ⟨"A.java"⟩ [] "A.java" := by
    rw [Path.Leads]
    decide +kernel
  have created : FileEvent.Tells .standard ⟨"/p"⟩ bareProject begunProject
      (.created (Path.join ⟨"/p"⟩ ⟨"A.java"⟩)) := by
    exact .created leads ⟨bareProject_below [] "A.java", by decide +kernel,
      fun location apart => projects_same apart⟩
  have deleted : FileEvent.Tells .standard ⟨"/p"⟩ begunProject bareProject
      (.deleted (Path.join ⟨"/p"⟩ ⟨"A.java"⟩)) := by
    refine .deleted leads ⟨.inr ⟨firstContents, ?_⟩, bareProject_below [] "A.java", ?_⟩
    · simp [MemoryFiles.bytesAt?, begunProject_contents, projectLocation]
    · intro location apart
      obtain ⟨directory, bytes⟩ := projects_same apart
      exact ⟨directory.symm, bytes.symm⟩
  obtain ⟨session, opened, keeps⟩ := maintenance_equals_rescan .standard ⟨"/p"⟩ bareProject rfl
    (by decide +kernel) bareProject_orderly (by decide +kernel)
  obtain ⟨step, dispatched, -⟩ :=
    (keeps bareProject session .opened).2 begunProject _ created begunProject_orderly
  obtain ⟨same, next⟩ := keeps begunProject step.session
    (.told .opened created begunProject_orderly dispatched)
  exact ⟨session, step, opened, dispatched, same, next bareProject _ deleted bareProject_orderly⟩

end Session

end CodeCensus

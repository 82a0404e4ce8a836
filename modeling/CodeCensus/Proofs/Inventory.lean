import CodeCensus.Proofs.Descent

/-!
# What a reading contains

The inventory of an entry lists its packages and source files, each with the names on the way to it.
A reading of files in memory is an inventory of the places below its path: one package for every
directory that is reached through directories that can be entered, one source file for every source
that is found in such a directory, and nothing else.
-/

namespace CodeCensus

namespace Entry

mutual

/-- The unit itself and, if it is a package, all packages and other units in it, each with the names
on the way down to it. -/
def inventory : Entry → List (List String × Entry)
  | ⟨kind, name, counts, nested⟩ =>
    ([], ⟨kind, name, counts, nested⟩) :: if kind = .package then inventoryAll nested else []

/-- The units of several entries, each behind the name of its entry. -/
def inventoryAll : List Entry → List (List String × Entry)
  | [] => []
  | entry :: entries =>
    entry.inventory.map (fun item => (entry.name :: item.1, item.2)) ++ inventoryAll entries

end

end Entry

/-- The file names of the paths that some names lead through, one after the other. -/
def Path.trail (path : Path) : List String → List String
  | [] => []
  | name :: names => (path.join ⟨name⟩).fileName :: (path.join ⟨name⟩).trail names

namespace Settings

variable {settings : Settings} {files : MemoryFiles} {path : Path} {name : String}
  {names : List String} {source : Entry}

/-- What some names lead to is a directory that can be listed and is not passed over. -/
def Enters (settings : Settings) (files : MemoryFiles) (path : Path) (names : List String) : Prop :=
  path.location ++ names ∈ files.directories ∧ path.location ++ names ∉ files.denied ∧
    (path.descend names).fileName ∉ settings.excludedDirs

/-- What some names lead to is a directory that is entered, and so are all those before it. -/
def Reaches (settings : Settings) (files : MemoryFiles) (path : Path) (names : List String) : Prop :=
  ∀ upper, upper <+: names → settings.Enters files path upper

/-- What some names lead to, through directories that are entered, is a file and no directory. It is
supported and can be read, and a source is recognised in its text. -/
structure FindsSource (settings : Settings) (files : MemoryFiles) (path : Path)
    (names : List String) (source : Entry) : Prop where
  way : ∀ upper, upper <+: names → upper ≠ names → settings.Enters files path upper
  noDirectory : path.location ++ names ∉ files.directories
  readable : path.location ++ names ∉ files.denied
  supported : settings.supports (path.descend names) = true
  recognized : ∃ bytes contents, files.bytesAt? (path.location ++ names) = some bytes ∧
    textOfBytes bytes = .ok contents ∧
    Source.recognize (path.descend names).fileName contents = .ok (some source)

/-- The names lead to something that counts. -/
def Counts (settings : Settings) (files : MemoryFiles) (path : Path) (names : List String) : Prop :=
  settings.Reaches files path names ∨ ∃ source, settings.FindsSource files path names source

/-- A unit is the package of the directory at a path: it is named like the path, what is nested in it
stands in the order of the names under which the directory has it, and its counters sum up what is
nested. Those names are the names of the nested units, except at the empty location. -/
structure IsPackage (files : MemoryFiles) (path : Path) (unit : Entry) : Prop where
  kind : unit.kind = .package
  name : unit.name = path.fileName
  listed : ∃ listed : List String, listed.Pairwise (· < ·) ∧
    (∀ name ∈ listed, files.Holds (path.location ++ [name])) ∧
    unit.nested.map Entry.name = listed.map fun name => (path.join ⟨name⟩).fileName
  sorted : path.location ≠ [] → (unit.nested.map Entry.name).Pairwise (· < ·)
  counts : unit.counts = (unit.nested.map Entry.counts).sum

/-- A unit is what the names lead to. -/
def Describes (settings : Settings) (files : MemoryFiles) (path : Path) (names : List String)
    (unit : Entry) : Prop :=
  (settings.Reaches files path names ∧ IsPackage files (path.descend names) unit) ∨
    settings.FindsSource files path names unit

/-! ### One level down -/

private theorem enters_cons (listed : MemoryFiles.Listed path name) :
    settings.Enters files path (name :: names) ↔
      settings.Enters files (path.join ⟨name⟩) names := by
  rw [Enters, Enters, listed.location, List.append_assoc, List.singleton_append, Path.descend_cons]

private theorem reaches_cons (listed : MemoryFiles.Listed path name) :
    settings.Reaches files path (name :: names) ↔
      settings.Enters files path [] ∧ settings.Reaches files (path.join ⟨name⟩) names := by
  constructor
  · intro reaches
    refine ⟨reaches [] List.nil_prefix, fun upper within => (enters_cons listed).mp ?_⟩
    exact reaches (name :: upper) (List.cons_prefix_cons.mpr ⟨rfl, within⟩)
  · rintro ⟨top, reaches⟩ upper within
    rcases List.prefix_cons_iff.mp within with rfl | ⟨rest, rfl, inside⟩
    · exact top
    · exact (enters_cons listed).mpr (reaches rest inside)

private theorem findsSource_cons (listed : MemoryFiles.Listed path name) :
    settings.FindsSource files path (name :: names) source ↔
      settings.Enters files path [] ∧
        settings.FindsSource files (path.join ⟨name⟩) names source := by
  have place : (path.join ⟨name⟩).location ++ names = path.location ++ name :: names := by
    rw [listed.location, List.append_assoc, List.singleton_append]
  constructor
  · rintro ⟨way, noDirectory, readable, supported, recognized⟩
    refine ⟨way [] List.nil_prefix (by simp), fun upper within apart => (enters_cons listed).mp ?_,
      place ▸ noDirectory, place ▸ readable, supported, place ▸ recognized⟩
    exact way (name :: upper) (List.cons_prefix_cons.mpr ⟨rfl, within⟩) (by simpa using apart)
  · rintro ⟨top, way, noDirectory, readable, supported, recognized⟩
    refine ⟨fun upper within apart => ?_, place ▸ noDirectory, place ▸ readable, supported,
      place ▸ recognized⟩
    rcases List.prefix_cons_iff.mp within with rfl | ⟨rest, rfl, inside⟩
    · exact top
    · exact (enters_cons listed).mpr (way rest inside (by simpa using apart))

/-- Something is where something counts. -/
theorem Counts.holds (counts : settings.Counts files path names) :
    files.Holds (path.location ++ names) := by
  rcases counts with reaches | ⟨source, found⟩
  · exact .inl (reaches names (List.prefix_refl _)).1
  · obtain ⟨bytes, _, bytesHere, -⟩ := found.recognized
    exact .inr ⟨bytes, bytesHere⟩

/-- What counts behind a name is below a directory that is entered and has the name. -/
theorem counts_cons (built : files.Built) :
    settings.Counts files path (name :: names) ↔ settings.Enters files path [] ∧
      files.Holds (path.location ++ [name]) ∧
      settings.Counts files (path.join ⟨name⟩) names := by
  have split : files.Holds (path.location ++ [name]) →
      (settings.Counts files path (name :: names) ↔ settings.Enters files path [] ∧
        settings.Counts files (path.join ⟨name⟩) names) := by
    intro held
    have listed := built.listed held
    simp only [Counts, reaches_cons listed, findsSource_cons listed, exists_and_left, ← and_or_left]
  constructor
  · intro counts
    have spelled : files.Holds (path.location ++ [name] ++ names) := by simpa using counts.holds
    have held := built.closed.holds_above spelled (by simp)
    obtain ⟨top, below⟩ := (split held).mp counts
    exact ⟨top, held, below⟩
  · rintro ⟨top, held, below⟩
    exact (split held).mpr ⟨top, below⟩

private theorem describes_cons {unit : Entry} (listed : MemoryFiles.Listed path name)
    (top : settings.Enters files path [])
    (describes : settings.Describes files (path.join ⟨name⟩) names unit) :
    settings.Describes files path (name :: names) unit := by
  rcases describes with ⟨reaches, package⟩ | found
  · exact .inl ⟨(reaches_cons listed).mpr ⟨top, reaches⟩, package⟩
  · exact .inr ((findsSource_cons listed).mpr ⟨top, found⟩)

/-! ### The inventory of a reading -/

/-- What was read at a path is an inventory of all that counts there and below, each thing once. -/
structure Inventoried (settings : Settings) (files : MemoryFiles) (path : Path)
    (read : Option Entry) : Prop where
  named : ∀ entry, read = some entry → entry.name = path.fileName
  places : ∃ places : List (List String), places.Nodup ∧
    (∀ names, names ∈ places ↔ settings.Counts files path names) ∧
    List.Forall₂ (fun names item => item.1 = path.trail names ∧
      settings.Describes files path names item.2) places (read.elim [] Entry.inventory)

private theorem inventoried_none (nothing : ∀ names, ¬settings.Counts files path names) :
    settings.Inventoried files path none :=
  ⟨nofun, [], .nil, fun names => by simp [nothing names], .nil⟩

/-- Nothing counts below a path that is not entered. -/
theorem not_counts_of_closed (built : files.Built) (directory : path.location ∈ files.directories)
    (closed : ¬settings.Enters files path []) (names : List String) :
    ¬settings.Counts files path names := by
  cases names with
  | nil =>
    rintro (reaches | ⟨source, found⟩)
    · exact closed (reaches [] List.nil_prefix)
    · exact found.noDirectory (by simpa using directory)
  | cons name names => exact fun counts => closed ((counts_cons built).mp counts).1

/-- Where no directory is, a source is read exactly when it is found. -/
theorem readFile_eq_ok (noDirectory : path.location ∉ files.directories) :
    settings.readFile files.view path = .ok (some source) ↔
      settings.FindsSource files path [] source := by
  constructor
  · intro done
    unfold readFile at done
    split at done
    · next present =>
      obtain ⟨isFile, supported⟩ := (Bool.and_eq_true _ _).mp present
      obtain ⟨bytes, bytesHere⟩ := Option.isSome_iff_exists.mp isFile
      simp only [MemoryFiles.view, bytesHere, List.contains_iff_mem] at done
      by_cases denied : path.location ∈ files.denied
      · simp [denied] at done
      · rw [if_neg denied] at done
        split at done
        · next contents text =>
          exact ⟨fun upper within apart => absurd (List.prefix_nil.mp within) apart,
            by simpa using noDirectory, by simpa using denied, supported, bytes, contents,
            by simpa using bytesHere, text, done⟩
        · cases done
    · cases done
  · rintro ⟨-, -, readable, supported, bytes, contents, bytesHere, text, recognized⟩
    simp only [List.append_nil, Path.descend_nil] at readable supported bytesHere recognized
    simp [readFile, MemoryFiles.view, bytesHere, supported, readable, text, recognized]

/-- Where no directory is, a reading finds the source or nothing. -/
theorem inventoried_file {read : Option Entry} (built : files.Built)
    (noDirectory : path.location ∉ files.directories)
    (done : settings.readFile files.view path = .ok read) :
    settings.Inventoried files path read := by
  have notEntered : ¬settings.Enters files path [] := fun top => noDirectory (by simpa using top.1)
  have source_of_counts : ∀ names, settings.Counts files path names →
      names = [] ∧ ∃ source, settings.FindsSource files path [] source := by
    intro names counts
    cases names with
    | nil =>
      rcases counts with reaches | found
      · exact absurd (reaches [] List.nil_prefix) notEntered
      · exact ⟨rfl, found⟩
    | cons name names => exact absurd ((counts_cons built).mp counts).1 notEntered
  cases read with
  | none =>
    refine inventoried_none fun names counts => ?_
    obtain ⟨-, source, found⟩ := source_of_counts names counts
    cases done.symm.trans ((readFile_eq_ok noDirectory).mpr found)
  | some source =>
    have found := (readFile_eq_ok noDirectory).mp done
    obtain ⟨named, kind, -⟩ := readFile_sound done
    have alone : source.inventory = [([], source)] := by
      obtain ⟨_, name, counts, nested⟩ := source
      simp only at kind
      subst kind
      simp [Entry.inventory]
    refine ⟨fun entry same => by rwa [← Option.some.inj same], [[]], by simp, fun names => ?_, ?_⟩
    · rw [List.mem_singleton]
      constructor
      · rintro rfl
        exact .inr ⟨source, found⟩
      · exact fun counts => (source_of_counts names counts).1
    · rw [Option.elim_some, alone]
      exact .cons ⟨rfl, .inr found⟩ .nil

/-- The inventories of what a directory lists make up the inventory of all that counts below it. -/
theorem inventoried_below {listed : List String} {reads : List (Option Entry)}
    (distinct : listed.Nodup)
    (each : List.Forall₂ (fun name read => MemoryFiles.Listed path name ∧
      settings.Inventoried files (path.join ⟨name⟩) read) listed reads) :
    ∃ places : List (List String), places.Nodup ∧
      (∀ place, place ∈ places ↔ ∃ name names, place = name :: names ∧ name ∈ listed ∧
        settings.Counts files (path.join ⟨name⟩) names) ∧
      List.Forall₂ (fun place item => item.1 = path.trail place ∧
        (settings.Enters files path [] → settings.Describes files path place item.2))
        places (Entry.inventoryAll (reads.filterMap id)) := by
  induction each with
  | nil => exact ⟨[], .nil, by simp, .nil⟩
  | @cons name read listed reads first _ inductionHypothesis =>
    obtain ⟨isListed, named, inner, innerDistinct, innerMember, innerItems⟩ := first
    obtain ⟨notLater, laterDistinct⟩ := List.nodup_cons.mp distinct
    obtain ⟨later, nodup, member, items⟩ := inductionHypothesis laterDistinct
    refine ⟨inner.map (name :: ·) ++ later, ?_, fun place => ?_, ?_⟩
    · refine List.nodup_append.mpr ⟨innerDistinct.map fun _ _ same => (List.cons.inj same).2, nodup,
        fun place early other late same => ?_⟩
      obtain ⟨names, -, rfl⟩ := List.mem_map.mp early
      obtain ⟨_, _, isLater, inLater, -⟩ := (member other).mp late
      obtain ⟨rfl, -⟩ := List.cons.inj (same.trans isLater)
      exact notLater inLater
    · rw [List.mem_append, member, List.mem_map]
      constructor
      · rintro (⟨names, inInner, rfl⟩ | ⟨other, names, rfl, inLater, counts⟩)
        · exact ⟨name, names, rfl, by simp, (innerMember names).mp inInner⟩
        · exact ⟨other, names, rfl, by simp [inLater], counts⟩
      · rintro ⟨other, names, rfl, inListed, counts⟩
        rcases List.mem_cons.mp inListed with rfl | inLater
        · exact .inl ⟨names, (innerMember names).mpr counts, rfl⟩
        · exact .inr ⟨other, names, rfl, inLater, counts⟩
    · have below : List.Forall₂ (fun place item => item.1 = path.trail place ∧
          (settings.Enters files path [] → settings.Describes files path place item.2))
          (inner.map (name :: ·)) (Entry.inventoryAll (read.elim [] fun entry => [entry])) := by
        cases read with
        | none =>
          obtain rfl := List.forall₂_nil_right_iff.mp innerItems
          exact .nil
        | some entry =>
          simp only [Option.elim_some, Entry.inventoryAll, List.append_nil]
          rw [List.forall₂_map_left_iff, List.forall₂_map_right_iff]
          refine innerItems.imp fun names item ⟨trail, describes⟩ => ⟨?_, fun top => ?_⟩
          · rw [Path.trail, ← named entry rfl, trail]
          · exact describes_cons isListed top describes
      have split : Entry.inventoryAll ((read :: reads).filterMap id) =
          Entry.inventoryAll (read.elim [] fun entry => [entry]) ++
            Entry.inventoryAll (reads.filterMap id) := by
        cases read <;> simp [Entry.inventoryAll]
      rw [split]
      exact List.rel_append below items

/-- What is nested in a package has the file names of some of what the directory lists, in order. -/
theorem names_of_listed {listed : List String} {reads : List (Option Entry)}
    (each : List.Forall₂ (fun name read => settings.Inventoried files (path.join ⟨name⟩) read)
      listed reads) :
    ∃ kept : List String, kept.Sublist listed ∧
      (reads.filterMap id).map Entry.name = kept.map fun name => (path.join ⟨name⟩).fileName := by
  induction each with
  | nil => exact ⟨[], .slnil, rfl⟩
  | @cons name read _ _ first _ inductionHypothesis =>
    obtain ⟨kept, within, same⟩ := inductionHypothesis
    cases read with
    | none => exact ⟨kept, within.cons name, same⟩
    | some entry =>
      exact ⟨name :: kept, within.cons_cons name,
        congrArg₂ List.cons (first.named entry rfl) same⟩

/-- What is read of all that a directory lists makes up the package of the directory. -/
theorem isPackage_of_listed {reads : List (Option Entry)} {package : Entry} (built : files.Built)
    (each : List.Forall₂ (fun name read => settings.Inventoried files (path.join ⟨name⟩) read)
      (files.childNames path.location) reads)
    (made : Entry.aggregate .package path.fileName (reads.filterMap id) = .ok package) :
    IsPackage files path package := by
  obtain ⟨counts, totalled, same⟩ := Fault.bind_eq_ok.mp made
  obtain rfl : Entry.mk .package path.fileName counts (reads.filterMap id) = package :=
    Except.ok.inj same
  obtain ⟨summed, -⟩ := Count.total_eq_ok totalled
  obtain ⟨kept, within, names⟩ := names_of_listed each
  have held : ∀ name ∈ kept, files.Holds (path.location ++ [name]) :=
    fun name member => MemoryFiles.mem_childNames.mp (within.subset member)
  have sorted : kept.Pairwise (· < ·) := (MemoryFiles.sorted_childNames _ _).sublist within
  refine ⟨rfl, rfl, ⟨kept, sorted, held, names⟩, fun inside => ?_, summed⟩
  have same : kept.map (fun name => (path.join ⟨name⟩).fileName) = kept.map id := by
    refine List.map_congr_left fun name member => ?_
    have listed := built.listed (held name member)
    rw [listed.fileName, if_neg fun isTop => inside (listed.top isTop), id_eq]
  rw [names, same, List.map_id]
  exact sorted

/-- A directory that is entered is read as a package with an inventory of what counts below it. -/
theorem inventoried_package {reads : List (Option Entry)} {package : Entry} (built : files.Built)
    (top : settings.Enters files path [])
    (each : List.Forall₂ (fun name read => settings.Inventoried files (path.join ⟨name⟩) read)
      (files.childNames path.location) reads)
    (made : Entry.aggregate .package path.fileName (reads.filterMap id) = .ok package) :
    settings.Inventoried files path (some package) := by
  have isPackage := isPackage_of_listed built each made
  obtain ⟨counts, -, same⟩ := Fault.bind_eq_ok.mp made
  obtain rfl : Entry.mk .package path.fileName counts (reads.filterMap id) = package :=
    Except.ok.inj same
  have isListed : ∀ name ∈ files.childNames path.location, MemoryFiles.Listed path name :=
    fun name member => built.listed (MemoryFiles.mem_childNames.mp member)
  obtain ⟨places, nodup, member, items⟩ := inventoried_below (MemoryFiles.nodup_childNames _ _)
    ((List.forall₂_and_left _ _).mpr ⟨isListed, each⟩)
  have reaches : settings.Reaches files path [] := fun upper within =>
    List.prefix_nil.mp within ▸ top
  refine ⟨fun entry same => by rw [← Option.some.inj same], [] :: places, ?_, fun names => ?_, ?_⟩
  · refine List.nodup_cons.mpr ⟨fun atTop => ?_, nodup⟩
    obtain ⟨_, _, impossible, -⟩ := (member []).mp atTop
    cases impossible
  · rw [List.mem_cons, member]
    cases names with
    | nil => exact iff_of_true (.inl rfl) (.inl reaches)
    | cons name names =>
      simp only [counts_cons built, reduceCtorEq, false_or, List.cons.injEq]
      constructor
      · rintro ⟨_, _, ⟨rfl, rfl⟩, inListed, counts⟩
        exact ⟨top, MemoryFiles.mem_childNames.mp inListed, counts⟩
      · rintro ⟨-, held, counts⟩
        exact ⟨name, names, ⟨rfl, rfl⟩, MemoryFiles.mem_childNames.mpr held, counts⟩
  · simp only [Option.elim_some, Entry.inventory, if_true]
    exact .cons ⟨rfl, .inl ⟨reaches, isPackage⟩⟩
      (items.imp fun place item ⟨trail, describes⟩ => ⟨trail, describes top⟩)

/-- Every reading is an inventory: of a package by induction along the listings. -/
theorem read_inventoried {read : Option Entry} (built : files.Built)
    (done : settings.read files.view path = .ok read) : settings.Inventoried files path read := by
  induction path using built.descent_ends.induction generalizing read with
  | _ path inductionHypothesis =>
    rw [read_eq_readOnce built, readOnce] at done
    by_cases directory : path.location ∈ files.directories
    · have isDirectory : files.view.isDirectory path = true :=
        MemoryFiles.isDirectory_view.mpr directory
      have enters_iff : settings.Enters files path [] ↔
          path.location ∉ files.denied ∧ settings.excludes files.view path = false := by
        simp [Enters, excludes, isDirectory, directory]
      have unread : ¬settings.Enters files path [] → settings.Inventoried files path none :=
        fun closed => inventoried_none (not_counts_of_closed built directory closed)
      split at done
      · next excluded =>
        obtain rfl := Except.ok.inj done
        exact unread fun top => by simp [(enters_iff.mp top).2] at excluded
      · next included =>
        split at done
        · next unlisted =>
          obtain rfl := Except.ok.inj done
          refine unread fun top => ?_
          cases unlisted.symm.trans (MemoryFiles.list_eq_some.mpr
            ⟨directory, (enters_iff.mp top).1, rfl⟩)
        · next children listing =>
          obtain ⟨-, readable, rfl⟩ := MemoryFiles.list_eq_some.mp listing
          obtain ⟨reads, each, rest⟩ := Fault.bind_eq_ok.mp done
          obtain ⟨package, made, same⟩ := Fault.bind_eq_ok.mp rest
          obtain rfl := Except.ok.inj same
          have top := enters_iff.mpr ⟨readable, Bool.eq_false_iff.mpr included⟩
          refine inventoried_package built top ?_ made
          have reading := List.forall₂_map_left_iff.mp (Fault.mapM_eq_ok.mp each)
          have listed : ∀ name ∈ files.childNames path.location,
              files.Lists (path.join ⟨name⟩) path :=
            fun name member => ⟨_, listing, List.mem_map_of_mem member⟩
          exact ((List.forall₂_and_left _ _).mpr ⟨listed, reading⟩).imp
            fun name read both => inductionHypothesis _ both.1 both.2
    · have isDirectory : files.view.isDirectory path = false :=
        Bool.eq_false_iff.mpr (mt MemoryFiles.isDirectory_view.mp directory)
      simp only [excludes, isDirectory, Bool.false_and, Bool.false_eq_true, if_false] at done
      exact inventoried_file built directory done

/-- Different places have different file names on the way. -/
theorem trail_injective {other : List String} (built : files.Built)
    (held : files.Holds (path.location ++ names)) (otherHeld : files.Holds (path.location ++ other))
    (same : path.trail names = path.trail other) : names = other := by
  induction names generalizing path other with
  | nil =>
    cases other with
    | nil => rfl
    | cons => cases same
  | cons name names inductionHypothesis =>
    cases other with
    | nil => cases same
    | cons first rest =>
      obtain ⟨sameName, sameRest⟩ := List.cons.inj same
      have above : ∀ {name : String} {names : List String},
          files.Holds (path.location ++ name :: names) → MemoryFiles.Listed path name ∧
            files.Holds ((path.join ⟨name⟩).location ++ names) := by
        intro name names held
        rw [← List.singleton_append, ← List.append_assoc] at held
        have listed := built.listed (built.closed.holds_above held (by simp))
        exact ⟨listed, by rwa [listed.location]⟩
      obtain ⟨listed, inside⟩ := above held
      obtain ⟨otherListed, otherInside⟩ := above otherHeld
      obtain rfl := listed.injective otherListed sameName
      rw [inductionHypothesis inside otherInside sameRest]

/-- Reading files in memory ends, wherever it begins, and mirrors them. What is read at a directory
has one package for every directory at or below it that can be listed and is not passed over, like
all directories on the way, one source file for every source that such a directory has, which is
what is recognised there, and nothing else. Every unit stands below that of its directory, under its
file name. Siblings stand in the order of the names under which their directory has them, which are
their names everywhere but at the empty location, and a package sums up what is directly in it. -/
theorem readings_mirror_files (settings : Settings) (files : MemoryFiles) (built : files.Built) :
    WellFounded files.Lists ∧
    (∀ path, settings.read files.view path =
      settings.readOnce files.view (settings.read files.view) path) ∧
    ∀ (path : Path) (entry : Entry), path.location ∈ files.directories →
      settings.read files.view path = .ok (some entry) →
      (entry.inventory.map Prod.fst).Nodup ∧
      ∃ places : List (List String), places.Nodup ∧
        (∀ names, names ∈ places ↔ settings.Reaches files path names ∨
          ∃ source, settings.FindsSource files path names source) ∧
        (∀ names ∈ places, (path.descend names).location = path.location ++ names) ∧
        List.Forall₂ (fun names item => item.1 = path.trail names ∧
          ((settings.Reaches files path names ∧ IsPackage files (path.descend names) item.2) ∨
            settings.FindsSource files path names item.2)) places entry.inventory := by
  refine ⟨built.descent_ends, read_eq_readOnce built settings, fun path entry _ done => ?_⟩
  obtain ⟨-, places, nodup, member, items⟩ := read_inventoried built done
  have held : ∀ names ∈ places, files.Holds (path.location ++ names) :=
    fun names inPlaces => ((member names).mp inPlaces).holds
  have trails : entry.inventory.map Prod.fst = places.map path.trail := by
    have paired := List.forall₂_map_left_iff.mpr (List.forall₂_map_right_iff.mpr
      (items.imp fun names item told => told.1.symm))
    exact (List.forall₂_eq_eq_eq ▸ paired : places.map path.trail = _).symm
  refine ⟨?_, places, nodup, member, fun names inPlaces =>
    built.location_descend (held names inPlaces), items⟩
  rw [trails]
  exact nodup.map_on fun names inPlaces other otherInPlaces =>
    trail_injective built (held names inPlaces) (held other otherInPlaces)

/-- Files below the working directory and below the top of the file system. -/
def twoTops : MemoryFiles :=
  (MemoryFiles.empty.addFile (Path.location ⟨"-b/B.java"⟩) "class B {}".toUTF8).addFile
    (Path.location ⟨"/c/C.java"⟩) "class C {}".toUTF8

/-- At the empty location the top of the file system stands behind a sibling with a greater name. -/
theorem top_of_files_breaks_the_order : twoTops.Built ∧ ∃ entry,
    Settings.standard.read twoTops.view ⟨""⟩ = .ok (some entry) ∧
    Path.location ⟨""⟩ ∈ twoTops.directories ∧
    entry.nested.map Entry.name = ["-b", ""] ∧
    ¬(entry.nested.map Entry.name).Pairwise (· < ·) := by
  have built : twoTops.Built := .addFile (.addFile .empty ⟨"-b/B.java"⟩ _) ⟨"/c/C.java"⟩ _
  have computed : (Settings.standard.read twoTops.view ⟨""⟩).toOption.any (fun read =>
      read.any fun entry => decide (entry.nested.map Entry.name = ["-b", ""])) = true := by
    decide +kernel
  obtain ⟨read, done, found⟩ := Fault.ok_of_any computed
  obtain ⟨entry, rfl, named⟩ := (Option.any_eq_true _ _).mp found
  have names := of_decide_eq_true named
  refine ⟨built, entry, done, by decide +kernel, names, ?_⟩
  rw [names]
  decide +kernel

/-- A project with a directory that is passed over, one that cannot be listed, and a file that is no
source beside one that is. -/
def variedFiles : MemoryFiles :=
  (((MemoryFiles.empty.addFile (Path.location ⟨"/p/in/A.JAVA"⟩) "class A {}".toUTF8).addFile
    (Path.location ⟨"/p/in/a.txt"⟩) "class A {}".toUTF8).addFile
    (Path.location ⟨"/p/out/B.java"⟩) "class B {}".toUTF8).addFile
    (Path.location ⟨"/p/shut/C.java"⟩) "class C {}".toUTF8 |>.deny (Path.location ⟨"/p/shut"⟩)

/-- Of the varied project a reading has the project, the open directory and the source in it. -/
theorem varied_files_are_mirrored : ∃ (entry : Entry) (places : List (List String)),
    Settings.standard.read variedFiles.view ⟨"/p"⟩ = .ok (some entry) ∧
    entry.inventory.map Prod.fst = [[], ["in"], ["in", "A.JAVA"]] ∧
    places.length = 3 ∧
    ∀ names, names ∈ places ↔ Settings.standard.Reaches variedFiles ⟨"/p"⟩ names ∨
      ∃ source, Settings.standard.FindsSource variedFiles ⟨"/p"⟩ names source := by
  have built : variedFiles.Built := .deny (.addFile (.addFile (.addFile (.addFile .empty
    ⟨"/p/in/A.JAVA"⟩ _) ⟨"/p/in/a.txt"⟩ _) ⟨"/p/out/B.java"⟩ _) ⟨"/p/shut/C.java"⟩ _) ⟨"/p/shut"⟩
  have computed : (Settings.standard.read variedFiles.view ⟨"/p"⟩).toOption.any (fun read =>
      read.any fun entry => decide (entry.inventory.map Prod.fst =
        [[], ["in"], ["in", "A.JAVA"]])) = true := by
    decide +kernel
  obtain ⟨read, done, found⟩ := Fault.ok_of_any computed
  obtain ⟨entry, rfl, listed⟩ := (Option.any_eq_true _ _).mp found
  have trails := of_decide_eq_true listed
  obtain ⟨-, places, -, member, -, items⟩ := (readings_mirror_files .standard variedFiles built).2.2
    ⟨"/p"⟩ entry (by decide +kernel) done
  have sameLength := items.length_eq
  rw [← List.length_map Prod.fst, trails] at sameLength
  exact ⟨entry, places, done, trails, sameLength, member⟩

end Settings

end CodeCensus

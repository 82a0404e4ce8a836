import CodeCensus.Proofs.Drift
import CodeCensus.Proofs.FailedEvent
import CodeCensus.Proofs.Scanning

/-!
# Events at the top of a project

A scan names the root after the last name of the project path, and an event about something directly
in the project asks for the node with the name of its directory. Both names come from the last
component of the project path. Where that is a name they agree, and the root gets what is new. Where
it is none, at the top of the file system or behind dots, the root is called by the whole path while
the event has no directory to name, and is dropped.
-/

namespace CodeCensus

/-- A project is named by its last name, or else by its whole path. -/
theorem Settings.projectName_cases (project : Path) :
    Settings.projectName project = project.fileName?.getD project.text := by
  cases ends : project.fileName? with
  | none => simp [Settings.projectName, Path.fileName, ends]
  | some top => rw [Settings.projectName_eq ends, Path.fileName, ends]; rfl

namespace Tree

variable {tree : Tree} {shape : Rose Handle} {outline : Outline} {name : String}

/-- The outline of a tree is headed by the name of the root. -/
theorem Shows.rootName?_eq (shows : tree.Shows shape outline) :
    tree.rootName? = some outline.label.name := by
  obtain ⟨top, live, -⟩ := shows.root_live
  have shown : tree.forest.facts tree.root = outline.label := by
    rw [← shows.facts, Rose.label_map, shows.top]
  rw [Forest.facts_of_node? live] at shown
  rw [rootName?, node?, live, ← shown]
  rfl

/-- An entry that is created below the name of the root becomes the last child of the root and is
added to its counters, unless a counter leaves its word. -/
theorem Shows.create_below_root (shows : tree.Shows shape outline)
    (words : outline.label.counts.inRange) (named : tree.rootName? = some name) (entry : Entry) :
    ((∃ outcome, tree.create name entry = .ok outcome) ↔
      (outline.label.counts + entry.counts).inRange) ∧
    ∀ outcome, tree.create name entry = .ok outcome →
      outcome.result = .ok () ∧ outcome.tree.root = tree.root ∧
      outcome.tree.outline? =
        some ⟨outline.label.raise entry.counts, outline.children ++ [Outline.ofEntry entry]⟩ := by
  have here := Rose.at?_nil shape
  obtain ⟨top, live, -⟩ := shows.shaped.top
  have branch : top.isLeaf = false := by
    have kind := shows.module
    rw [← shows.facts, Rose.label_map, Forest.facts_of_node? live] at kind
    rw [Node.isLeaf, show top.kind = .module from kind]
    rfl
  obtain ⟨grown, new, appended, onward, total⟩ :=
    shows.exchanged here live branch entry entry.counts
  have created : tree.create name entry = (grown.raise shape.label entry.counts).bind
      fun raised => .ok ⟨raised, .ok ()⟩ := by
    rw [Tree.create, shows.find?_rootName named, ← shows.top]
    simp only [appended]
    rfl
  constructor
  · constructor
    · rintro ⟨outcome, done⟩
      rw [created] at done
      obtain ⟨raised, wasRaised, -⟩ := Fault.bind_eq_ok.mp done
      exact (onward raised wasRaised).2.2.2 words
    · intro fits
      obtain ⟨raised, wasRaised⟩ := total (by simpa [Rose.spine] using fits)
      exact ⟨_, created.trans (Fault.bind_eq_ok.mpr ⟨raised, wasRaised, rfl⟩)⟩
  · intro outcome done
    rw [created] at done
    obtain ⟨raised, wasRaised, same⟩ := Fault.bind_eq_ok.mp done
    obtain rfl := Except.ok.inj same
    obtain ⟨-, root, raisedShows, -⟩ := onward raised wasRaised
    exact ⟨rfl, root, raisedShows.outline?⟩

end Tree

namespace Session

variable {settings : Settings} {files later : Files} {project path : Path} {session : Session}
  {scope : String} {entry : Entry}

/-- The root of a session that was just opened is named like its project. -/
theorem rootName?_of_start (opened : start settings files project = .ok (.ok session)) :
    session.settings = settings ∧
      session.tree.rootName? = some (project.fileName?.getD project.text) := by
  obtain ⟨fresh, made, rest⟩ := Fault.bind_eq_ok.mp opened
  cases fresh with
  | error failure => cases rest
  | ok tree =>
    obtain rfl := Except.ok.inj (Except.ok.inj rest)
    obtain ⟨scanned, scan, grown⟩ := Fault.bind_eq_ok.mp made
    cases scanned with
    | error failure => cases grown
    | ok entry =>
      obtain ⟨ready, shape, shows⟩ := Tree.ofEntry_shows entry
      simp only [ready] at grown
      obtain rfl := Except.ok.inj (Except.ok.inj grown)
      refine ⟨rfl, shows.rootName?_eq.trans ?_⟩
      rw [Entry.withKind, Outline.ofEntry_branch, ← Settings.projectName_cases,
        ← (Settings.scan_sound scan).1]

/-- A creation of something that can be read makes one mutation. -/
theorem dispatch_created (directory : path.parentName? = some scope)
    (contents : session.settings.read later path = .ok (some entry)) :
    session.dispatch later (.created path) = (session.tree.create scope entry).bind fun outcome =>
      .ok ⟨{ session with tree := outcome.tree }, outcome.result.mapError Failure.tree⟩ := by
  simp only [dispatch, apply, addPath, directory, contents]
  rfl

/-- An event about something without a directory to name is dropped. -/
theorem dispatch_created_nowhere (nowhere : path.parentName? = none) :
    session.dispatch later (.created path) = .ok ⟨session, .ok ()⟩ := by
  simp only [dispatch, apply, addPath, nowhere]
  rfl

/-- Whatever project a session was opened on, something new directly in it has the last name of the
project path as the name of its directory. The root has the same name exactly when the path ends in
a name, and then what is new is appended to the root and counted there, unless a counter leaves its
word. A project path that ends in no name gives its whole text to the root and no name to the
directory, and the event is dropped. -/
theorem events_at_the_top (settings : Settings) (files later : Files) (project : Path)
    (session : Session) (opened : start settings files project = .ok (.ok session)) (name : String)
    (isName : IsName name) (entry : Entry)
    (contents : settings.read later (project.join ⟨name⟩) = .ok (some entry)) :
    (project.join ⟨name⟩).parentName? = project.fileName? ∧
    (session.tree.rootName? = (project.join ⟨name⟩).parentName? ↔ project.fileName?.isSome) ∧
    (∀ top, project.fileName? = some top →
      session.tree.rootName? = some top ∧
      ∃ outline, session.tree.outline? = some outline ∧
        ((∃ step, session.dispatch later (.created (project.join ⟨name⟩)) = .ok step) ↔
          (outline.label.counts + entry.counts).inRange) ∧
        ∀ step, session.dispatch later (.created (project.join ⟨name⟩)) = .ok step →
          step.result = .ok () ∧ step.session.tree.root = session.tree.root ∧
          step.session.tree.outline? =
            some ⟨outline.label.raise entry.counts, outline.children ++ [Outline.ofEntry entry]⟩) ∧
    (project.fileName? = none →
      session.tree.rootName? = some project.text ∧
      session.dispatch later (.created (project.join ⟨name⟩)) = .ok ⟨session, .ok ()⟩) := by
  have directory : (project.join ⟨name⟩).parentName? = project.fileName? :=
    Path.parentName?_join isName
  obtain ⟨rfl, named⟩ := rootName?_of_start opened
  refine ⟨directory, ?_, fun top ends => ?_, fun ends => ?_⟩
  · rw [directory, named]
    cases project.fileName? <;> simp
  · rw [ends] at directory named
    obtain ⟨shape, outline, shows, words, -⟩ := start_settles opened
    obtain ⟨total, appends⟩ := shows.create_below_root words named entry
    refine ⟨named, outline, shows.outline?, ?_, fun step done => ?_⟩
    · rw [← total, dispatch_created directory contents]
      constructor
      · rintro ⟨step, done⟩
        obtain ⟨outcome, created, -⟩ := Fault.bind_eq_ok.mp done
        exact ⟨outcome, created⟩
      · rintro ⟨outcome, created⟩
        exact ⟨_, Fault.bind_eq_ok.mpr ⟨outcome, created, rfl⟩⟩
    · rw [dispatch_created directory contents] at done
      obtain ⟨outcome, created, same⟩ := Fault.bind_eq_ok.mp done
      obtain rfl := Except.ok.inj same
      obtain ⟨ended, root, shown⟩ := appends outcome created
      exact ⟨by rw [ended]; rfl, root, shown⟩
  · rw [ends] at directory named
    exact ⟨named, dispatch_created_nowhere directory⟩

/-- Slashes and dots behind a name do not matter; a path of dots, or of nothing, ends in none. -/
example : ["/p", "p", "p/", "p/.", "../p"].map (fun text => Path.fileName? ⟨text⟩) =
      ["p", "p", "p", "p", "p"].map some ∧
    ["", ".", "..", "/", "/.", "p/.."].map (fun text => Path.fileName? ⟨text⟩) =
      List.replicate 6 none := by
  decide +kernel

/-- A directory with a file. -/
def oneFile (directory : Path) : MemoryFiles :=
  MemoryFiles.empty.addFile (directory.join ⟨"A.java"⟩).location "class A {}".toUTF8

/-- The same directory after another file came. -/
def twoFiles (directory : Path) : MemoryFiles :=
  (oneFile directory).addFile (directory.join ⟨"B.java"⟩).location "class B {}".toUTF8

/-- A project that is opened at a dot does not get to see a new file, although it can be read. -/
theorem dot_hides_new_files : ∃ session entry,
    start .standard (oneFile ⟨"."⟩).view ⟨"."⟩ = .ok (.ok session) ∧
    Settings.standard.modules = [] ∧ session.tree.rootName? = some "." ∧ IsName "B.java" ∧
    Path.join ⟨"."⟩ ⟨"B.java"⟩ = ⟨"./B.java"⟩ ∧ Path.parentName? ⟨"./B.java"⟩ = none ∧
    Settings.standard.read (twoFiles ⟨"."⟩).view ⟨"./B.java"⟩ = .ok (some entry) ∧
    entry.name = "B.java" ∧ session.tree.find? "B.java" = none ∧
    session.dispatch (twoFiles ⟨"."⟩).view (.created ⟨"./B.java"⟩) = .ok ⟨session, .ok ()⟩ := by
  have computed : (start .standard (oneFile ⟨"."⟩).view ⟨"."⟩).toOption.any (fun opened =>
      opened.toOption.any fun session =>
        decide (session.tree.rootName? = some "." ∧ session.tree.find? "B.java" = none)) = true := by
    decide +kernel
  have readable : (Settings.standard.read (twoFiles ⟨"."⟩).view ⟨"./B.java"⟩).toOption.any
      (fun read => read.any fun entry => decide (entry.name = "B.java")) = true := by
    decide +kernel
  obtain ⟨opened, started, ready⟩ := Fault.ok_of_any computed
  obtain ⟨session, rfl, facts⟩ := Fault.ok_of_any ready
  obtain ⟨named, unseen⟩ := of_decide_eq_true facts
  obtain ⟨read, wasRead, found⟩ := Fault.ok_of_any readable
  obtain ⟨entry, rfl, entryName⟩ := (Option.any_eq_true _ _).mp found
  have nowhere : Path.parentName? ⟨"./B.java"⟩ = none := by decide +kernel
  refine ⟨session, entry, started, rfl, named, ?_, by decide +kernel, nowhere, wasRead,
    of_decide_eq_true entryName, unseen, dispatch_created_nowhere nowhere⟩
  unfold IsName
  decide +kernel

/-- A project whose path ends in a slash sees a new file, behind the one that was there. -/
theorem slash_hides_nothing : ∃ session step outline,
    start .standard (oneFile ⟨"p/"⟩).view ⟨"p/"⟩ = .ok (.ok session) ∧
    session.dispatch (twoFiles ⟨"p/"⟩).view (.created ⟨"p/B.java"⟩) = .ok step ∧
    step.session.tree.outline? = some outline ∧
    outline.label.counts = ⟨2, 0⟩ ∧
    outline.children.map (fun unit => unit.label.name) = ["A.java", "B.java"] := by
  have computed : (start .standard (oneFile ⟨"p/"⟩).view ⟨"p/"⟩).toOption.any (fun opened =>
      opened.toOption.any fun session =>
        session.tree.outline?.any (fun outline => decide (outline.label.counts = ⟨1, 0⟩ ∧
          outline.children.map (fun unit => unit.label.name) = ["A.java"])) &&
        (session.dispatch (twoFiles ⟨"p/"⟩).view (.created ⟨"p/B.java"⟩)).toOption.any
          fun _ => true) = true := by
    decide +kernel
  have readable : (Settings.standard.read (twoFiles ⟨"p/"⟩).view
      (Path.join ⟨"p/"⟩ ⟨"B.java"⟩)).toOption.any (fun read => read.any fun entry =>
        decide (entry.name = "B.java" ∧ entry.counts = ⟨1, 0⟩)) = true := by
    decide +kernel
  obtain ⟨opened, started, ready⟩ := Fault.ok_of_any computed
  obtain ⟨session, rfl, facts⟩ := Fault.ok_of_any ready
  obtain ⟨shown, follows⟩ := (Bool.and_eq_true _ _).mp facts
  obtain ⟨outline, isOutline, before⟩ := (Option.any_eq_true _ _).mp shown
  obtain ⟨step, dispatched, -⟩ := Fault.ok_of_any follows
  obtain ⟨counted, listed⟩ := of_decide_eq_true before
  obtain ⟨read, wasRead, found⟩ := Fault.ok_of_any readable
  obtain ⟨entry, rfl, fresh⟩ := (Option.any_eq_true _ _).mp found
  obtain ⟨entryName, entryCounts⟩ := of_decide_eq_true fresh
  have isName : IsName "B.java" := by
    unfold IsName
    decide +kernel
  obtain ⟨-, -, appends, -⟩ :=
    events_at_the_top .standard _ _ ⟨"p/"⟩ session started "B.java" isName entry wasRead
  obtain ⟨-, other, isOther, -, later⟩ := appends "p" (by decide +kernel)
  obtain rfl := Option.some.inj (isOutline.symm.trans isOther)
  refine ⟨session, step, _, started, dispatched, (later step dispatched).2.2, ?_, ?_⟩
  · rw [Facts.raise_counts, counted, entryCounts]
    rfl
  · rw [List.map_append, listed, List.map_singleton, Outline.ofEntry_name, entryName]
    rfl

end Session

end CodeCensus

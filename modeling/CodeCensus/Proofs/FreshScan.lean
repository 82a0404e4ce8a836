import CodeCensus.Command.Run
import CodeCensus.Files.Memory
import CodeCensus.Proofs.Drift
import CodeCensus.Proofs.Population

/-!
# Fresh scans

Classes, source files, packages and modules each come by their counters in a way of their own, and
the audit knows nothing of these ways. On a tree that was just scanned it finds nothing all the same,
whatever the files hold and whatever the settings say. What can go wrong before it comes to a scan
are the settings and the project directory, so a check never ends with inconsistent counters.
-/

namespace CodeCensus

variable {files : Files} {settings : Settings} {project : Path} {failure : Failure}

/-! ### Why nothing is scanned -/

private theorem Layer.load_failure {path : Path} (failed : Layer.load files path = .error failure) :
    ∃ message, failure = .config message := by
  unfold Layer.load at failed
  split at failed
  · exact ⟨_, (Except.error.inj failed).symm⟩
  · split at failed
    · cases failed
    · exact ⟨_, (Except.error.inj failed).symm⟩

private theorem Layer.loadIfPresent_failure {path : Option Path}
    (failed : Layer.loadIfPresent files path = .error failure) :
    ∃ message, failure = .config message := by
  unfold Layer.loadIfPresent at failed
  split at failed
  · split at failed
    · exact Layer.load_failure failed
    · cases failed
  · cases failed

/-- Settings that cannot be loaded are a failure of the configuration. -/
theorem Settings.load_failure {environment : Environment} {globalFile project : Option Path}
    (failed : Settings.load files environment globalFile project = .ok (.error failure)) :
    ∃ message, failure = .config message := by
  unfold Settings.load at failed
  split at failed
  · next earlier unread =>
    obtain rfl : earlier = failure := Except.error.inj (Except.ok.inj failed)
    unfold Settings.ofFiles at unread
    cases shared : Layer.loadIfPresent files globalFile with
    | error cause =>
      rw [shared] at unread
      obtain rfl : cause = earlier := Except.error.inj unread
      exact Layer.loadIfPresent_failure shared
    | ok layer =>
      cases own : Layer.loadIfPresent files (project.map projectSettingsPath) with
      | error cause =>
        rw [shared, own] at unread
        obtain rfl : cause = earlier := Except.error.inj unread
        exact Layer.loadIfPresent_failure own
      | ok _ =>
        rw [shared, own] at unread
        cases unread
  · obtain ⟨_, -, spoken⟩ := Fault.bind_eq_ok.mp failed
    cases spoken

/-- A project that cannot be scanned is not there, is no directory, or cannot be listed. -/
theorem Settings.scan_failure (failed : settings.scan files project = .ok (.error failure)) :
    failure = .projectNotFound project ∨ failure = .notADirectory project ∨
      failure = .operation ("list directory: " ++ project.text) := by
  unfold Settings.scan at failed
  split at failed
  · exact .inl (Except.error.inj (Except.ok.inj failed)).symm
  split at failed
  · exact .inr (.inl (Except.error.inj (Except.ok.inj failed)).symm)
  obtain ⟨top, read, rest⟩ := Fault.bind_eq_ok.mp failed
  cases top with
  | ok nested =>
    obtain ⟨_, -, scanned⟩ := Fault.bind_eq_ok.mp rest
    cases scanned
  | error cause =>
    obtain rfl : cause = failure := Except.error.inj (Except.ok.inj rest)
    unfold Settings.readTop at read
    split at read
    · unfold Settings.readChildren at read
      split at read
      · exact .inr (.inr (Except.error.inj (Except.ok.inj read)).symm)
      · obtain ⟨_, -, listed⟩ := Fault.bind_eq_ok.mp read
        cases listed
    · obtain ⟨_, -, listed⟩ := Fault.bind_eq_ok.mp read
      cases listed

namespace Session

variable {session : Session}

/-- Whatever was scanned can be made a tree. -/
theorem start_failure (failed : start settings files project = .ok (.error failure)) :
    settings.scan files project = .ok (.error failure) := by
  obtain ⟨fresh, made, rest⟩ := Fault.bind_eq_ok.mp failed
  cases fresh with
  | ok tree => cases rest
  | error cause =>
    obtain rfl : cause = failure := Except.error.inj (Except.ok.inj rest)
    obtain ⟨scanned, scan, grown⟩ := Fault.bind_eq_ok.mp made
    cases scanned with
    | error earlier => rw [scan, Except.error.inj (Except.ok.inj grown)]
    | ok entry =>
      simp only [(Tree.ofEntry_shows entry).1] at grown
      cases grown

/-! ### What a fresh scan counts -/

/-- A balanced tree passes its audit, and its branches count what stands below them. -/
theorem Settles.truthful {tree : Tree} (settles : Settles tree True) :
    tree.recount = .ok [] ∧ tree.Truthful := by
  have silent : tree.recount = .ok [] := settles.recount_iff.mpr trivial
  obtain ⟨shape, outline, shows, -⟩ := settles
  exact ⟨silent, shows.truthful_iff.mpr (shows.silent_iff.mp silent).2⟩

private theorem Settles.observed {tree : Tree} {balanced : Prop} (settles : Settles tree balanced)
    (observers : Observers) : Settles { tree with observers } balanced := by
  obtain ⟨shape, outline, shows, words, same⟩ := settles
  exact ⟨shape, outline, shows.observed observers, words, same⟩

/-- The tree after a new scan that succeeds is a fresh one, with the observers of the old. -/
theorem refresh_settles {step : Step Unit} (refreshed : session.refresh files = .ok step)
    (succeeded : step.result = .ok ()) : Settles step.session.tree True := by
  obtain ⟨fresh, made, rest⟩ := Fault.bind_eq_ok.mp refreshed
  cases fresh with
  | error cause =>
    obtain rfl := Except.ok.inj rest
    cases succeeded
  | ok tree =>
    obtain rfl := Except.ok.inj rest
    exact (freshTree_settles made).observed _

/-- What the audit of a consistent tree reports. -/
theorem audit_of_silence (silent : session.tree.recount = .ok []) :
    session.audit = .ok (.ofLines [.success ("counters consistent (" ++
      toString session.tree.forest.size ++ " nodes)")]) := by
  simp only [audit, silent]
  rfl

end Session

namespace Surroundings

variable {around : Surroundings} {session : Session}

private theorem openSession_settles (opened : around.openSession project = .ok (.ok session)) :
    Session.Settles session.tree True := by
  obtain ⟨loaded, -, started⟩ := Fault.bind_eq_ok.mp opened
  cases loaded with
  | error cause => cases started
  | ok settings => exact Session.start_settles started

/-- No session is opened if the settings cannot be loaded or the project cannot be scanned. -/
theorem openSession_failure (failed : around.openSession project = .ok (.error failure)) :
    (∃ message, failure = .config message) ∨ failure = .projectNotFound project ∨
      failure = .notADirectory project ∨
      failure = .operation ("list directory: " ++ project.text) := by
  obtain ⟨loaded, load, started⟩ := Fault.bind_eq_ok.mp failed
  cases loaded with
  | error cause =>
    obtain rfl : cause = failure := Except.error.inj (Except.ok.inj started)
    exact .inl (Settings.load_failure load)
  | ok settings => exact .inr (Settings.scan_failure (Session.start_failure started))

end Surroundings

namespace Session

/-- A tree that was just scanned, at the opening of a session or later, passes its audit, and each
of its branches counts the classes and functions that stand below it. So a check of a project
reports consistent counters wherever a session can be opened, and never inconsistent ones. -/
theorem fresh_scans_are_consistent :
    (∀ settings files project session, start settings files project = .ok (.ok session) →
      session.tree.recount = .ok [] ∧ session.tree.Truthful) ∧
    (∀ (session : Session) files step, session.refresh files = .ok step → step.result = .ok () →
      step.session.tree.recount = .ok [] ∧ step.session.tree.Truthful) ∧
    (∀ (around : Surroundings) project session,
      around.openSession project = .ok (.ok session) →
      around.check project = .ok (.ofLines [.success ("counters consistent (" ++
        toString session.tree.forest.size ++ " nodes)")])) ∧
    ∀ (around : Surroundings) project report, around.check project = .ok report →
      ∀ number, report.result ≠ .error (.inconsistent number) := by
  have consistent : ∀ (around : Surroundings) project session,
      around.openSession project = .ok (.ok session) →
      around.check project = session.audit ∧ session.tree.recount = .ok [] := by
    intro around project session opened
    refine ⟨?_, (around.openSession_settles opened).truthful.1⟩
    rw [Surroundings.check, opened]
    rfl
  refine ⟨fun _ _ _ _ opened => (start_settles opened).truthful,
    fun _ _ _ refreshed succeeded => (refresh_settles refreshed succeeded).truthful, ?_, ?_⟩
  · intro around project session opened
    obtain ⟨audited, silent⟩ := consistent around project session opened
    rw [audited, audit_of_silence silent]
  · intro around project report checked number
    obtain ⟨outcome, opened, rest⟩ := Fault.bind_eq_ok.mp checked
    cases outcome with
    | error failure =>
      obtain rfl := Except.ok.inj rest
      rintro ⟨⟩
      obtain ⟨_, impossible⟩ | impossible | impossible | impossible :=
        Surroundings.openSession_failure opened <;> cases impossible
    | ok session =>
      obtain ⟨-, silent⟩ := consistent around project session opened
      change session.audit = .ok report at rest
      rw [audit_of_silence silent] at rest
      obtain rfl := Except.ok.inj rest
      rintro ⟨⟩

/-- A module with a file of two types and a directory that is passed over, beside a file that is in
no module. -/
def projectOfModules : MemoryFiles :=
  ((MemoryFiles.empty.addFile ["/", "p", "core", "A.java"]
    "class A { A() {} void run() { go(); } } enum B { X; }".toUTF8).addFile
    ["/", "p", "core", "build", "C.java"] "class C {}".toUTF8).addFile
    ["/", "p", "D.java"] "class D {}".toUTF8

/-- The module alone is scanned at first. After the file of two types is gone, a new scan of the
session finds the module empty, while a check under the standard settings sees the whole project. -/
theorem project_of_modules_is_consistent :
    let settings : Settings := { Settings.standard with modules := ["core"] }
    let later := projectOfModules.remove ["/", "p", "core", "A.java"]
    let around : Surroundings := ⟨later.view, ⟨[], none⟩, ⟨"/p"⟩⟩
    ∃ session step report,
      start settings projectOfModules.view ⟨"/p"⟩ = .ok (.ok session) ∧
      (session.tree.recount = .ok [] ∧ session.tree.Truthful) ∧
      session.tree.population 0 = ⟨2, 2⟩ ∧
      session.refresh later.view = .ok step ∧ step.result = .ok () ∧
      (step.session.tree.recount = .ok [] ∧ step.session.tree.Truthful) ∧
      step.session.tree.population 0 = 0 ∧
      around.check ⟨"/p"⟩ = .ok report ∧ report.result ≠ .error (.inconsistent 1) := by
  intro settings later around
  have computed : (start settings projectOfModules.view ⟨"/p"⟩).toOption.any (fun opened =>
      opened.toOption.any fun session => decide (session.tree.population 0 = ⟨2, 2⟩) &&
        (session.refresh later.view).toOption.any fun step =>
          step.result.toOption.any (fun _ => true) &&
            decide (step.session.tree.population 0 = 0)) = true := by
    decide +kernel
  have checkable : (around.check ⟨"/p"⟩).toOption.any (fun _ => true) = true := by
    decide +kernel
  obtain ⟨fromStart, fromRefresh, -, fromCheck⟩ := fresh_scans_are_consistent
  obtain ⟨opened, started, ready⟩ := Fault.ok_of_any computed
  obtain ⟨session, rfl, checks⟩ := Fault.ok_of_any ready
  obtain ⟨many, moves⟩ := Bool.and_eq_true_iff.mp checks
  obtain ⟨step, refreshed, results⟩ := Fault.ok_of_any moves
  obtain ⟨succeeded, nothing⟩ := Bool.and_eq_true_iff.mp results
  obtain ⟨⟨⟩, success, -⟩ := Fault.ok_of_any succeeded
  obtain ⟨report, checked, -⟩ := Fault.ok_of_any checkable
  exact ⟨session, step, report, started, fromStart _ _ _ _ started, of_decide_eq_true many,
    refreshed, success, fromRefresh _ _ _ refreshed success, of_decide_eq_true nothing, checked,
    fromCheck _ _ _ checked 1⟩

end Session

end CodeCensus

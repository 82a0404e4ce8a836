import CodeCensus.Command.Report
import CodeCensus.Command.Request
import CodeCensus.Project.Script
import CodeCensus.Project.Session
import CodeCensus.Settings.Loading
import CodeCensus.Tree.Audit

/-!
# Running requests

Each command turns what it finds around it into a report. Commands that look at a project load
its settings first and then open a session on it; the first failure ends the command.
-/

namespace CodeCensus

/-- What a command finds around it. -/
structure Surroundings where
  files : Files
  environment : Environment
  /-- The working directory, as an absolute path. -/
  working : Path

/-- The settings of a project. -/
def Surroundings.settings (around : Surroundings) (project : Path) :
    Except Fault (Except Failure Settings) :=
  Settings.load around.files around.environment (globalSettingsPath? around.environment)
    (some project)

/-- A session on a project under its settings. -/
def Surroundings.openSession (around : Surroundings) (project : Path) :
    Except Fault (Except Failure Session) := do
  match ← around.settings project with
  | .error failure => return .error failure
  | .ok settings => Session.start settings around.files project

/-- Whether a file is there, in words. -/
def Surroundings.locate (around : Surroundings) (path : Path) : String :=
  path.text ++ (if around.files.present path then " (exists)" else " (not found)")

namespace Session

/-- The line that draws the tree of a session, with an empty line after it. -/
def drawing (session : Session) : ReportLine :=
  .plain (session.tree.draw session.settings.drawing)

/-- What a run of events reports to an observer that subscribed before it. -/
def replay (session : Session) (files : Files) (events : List FileEvent) (verbose : Bool) :
    Except Fault Report := do
  let (tree, observer) := session.tree.subscribe
  let step ← { session with tree }.run files events
  match step.result with
  | .error failure => return .ofFailure failure
  | .ok dispatched =>
    let after := step.session.tree
    let changes := match after.observers.mailbox? observer with
      | some mailbox => after.tell mailbox
      | none => []
    let told :=
      if verbose then
        .header "Changes" :: changes.map fun change => .detail (after.describe change)
      else []
    return .ofLines (told ++
      [step.session.drawing, .success ("replayed " ++ toString dispatched ++ " events")])

/-- What an audit reports. -/
def audit (session : Session) : Except Fault Report := do
  let tree := session.tree
  let mismatches ← tree.recount
  if mismatches.isEmpty then
    return .ofLines [.success ("counters consistent (" ++ toString tree.forest.size ++ " nodes)")]
  else
    let told := mismatches.map fun mismatch =>
      ReportLine.failure ("/".intercalate (tree.path mismatch.node) ++ ": stored " ++
        mismatch.stored.describe ++ ", expected " ++ mismatch.expected.describe)
    return ⟨.header "Inconsistent counters" :: told, [], .error (.inconsistent mismatches.length)⟩

end Session

/-- Scans a project and draws its tree. -/
def Surroundings.scan (around : Surroundings) (project : Path) : Except Fault Report := do
  match ← around.openSession project with
  | .error failure => return .ofFailure failure
  | .ok session => return .ofLines [session.drawing]

/-- Scans a project and runs an event script on it. -/
def Surroundings.replay (around : Surroundings) (script project : Path) (verbose : Bool) :
    Except Fault Report := do
  match ← around.openSession project with
  | .error failure => return .ofFailure failure
  | .ok session =>
    match loadScript around.files script project with
    | .error failure => return .ofFailure failure
    | .ok events => session.replay around.files events verbose

/-- Scans a project and audits its counters. -/
def Surroundings.check (around : Surroundings) (project : Path) : Except Fault Report := do
  match ← around.openSession project with
  | .error failure => return .ofFailure failure
  | .ok session => session.audit

/-- Shows the settings of a project. -/
def Surroundings.showSettings (around : Surroundings) (project : Path) : Except Fault Report := do
  match ← around.settings project with
  | .error failure => return .ofFailure failure
  | .ok settings => return .ofLines [.plain (← settings.toDocument)]

/-- Shows where the settings of a project come from. -/
def Surroundings.showSettingsPaths (around : Surroundings) (project : Path) : Report :=
  let own := ReportLine.plain ("project: " ++ around.locate (projectSettingsPath project))
  match globalSettingsPath? around.environment with
  | some shared => .ofLines [.plain ("global:  " ++ around.locate shared), own]
  | none => ⟨[own], ["no home directory, global config disabled"], .ok ()⟩

/-- The names of the commands, each on a line. -/
def commandNames : List ReportLine :=
  (Level.program.commands.map fun entry => ReportLine.plain entry.1) ++ [.plain "help"]

/-- Runs what a request asks for. -/
def Request.run (request : Request) (around : Surroundings) : Except Fault Report :=
  let project := request.project around.working
  match request.command with
  | .overview => .ok (.ofLines [.plain overview])
  | .scan _ => around.scan project
  | .replay script _ verbose => around.replay ⟨script⟩ project verbose
  | .check _ => around.check project
  | .showSettings => around.showSettings project
  | .showSettingsPaths => .ok (around.showSettingsPaths project)
  | .completion _ => .ok (.ofLines commandNames)

end CodeCensus

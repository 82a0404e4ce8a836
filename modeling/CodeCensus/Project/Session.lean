import CodeCensus.Project.Event
import CodeCensus.Project.Reader

/-!
# Sessions

A session is a project under its settings together with its live tree. File events become
mutations of the tree: an event names the unit it is about by the name of its directory and its
file name only. Events about files that are not read are dropped; a mutation that the tree refuses
fails the event and stops a run.

The files are an argument of every step, since they change on their own between the steps.
-/

namespace CodeCensus

/-- A project and its live tree. -/
structure Session where
  settings : Settings
  project : Path
  tree : Tree

/-- What a step of a session leaves behind: the session and the result of the step. -/
structure Step (α : Type) where
  session : Session
  result : Except Failure α

namespace Session

/-- A tree for a fresh scan of a project. -/
def freshTree (settings : Settings) (files : Files) (project : Path) :
    Except Fault (Except Failure Tree) := do
  match ← settings.scan files project with
  | .error failure => return .error failure
  | .ok entry =>
    let outcome := Tree.ofEntry entry
    match outcome.result with
    | .error cause => return .error (.tree cause)
    | .ok _ => return .ok outcome.tree

/-- Scans a project and opens a session on it. -/
def start (settings : Settings) (files : Files) (project : Path) :
    Except Fault (Except Failure Session) := do
  match ← freshTree settings files project with
  | .error failure => return .error failure
  | .ok tree => return .ok ⟨settings, project, tree⟩

/-- A tree that nothing was done to. -/
def unchanged (tree : Tree) : Outcome := ⟨tree, .ok ()⟩

/-- Adds what is read at a path below the node named like its directory. -/
def addPath (settings : Settings) (files : Files) (tree : Tree) (path : Path) :
    Except Fault Outcome :=
  match path.parentName? with
  | none => .ok (unchanged tree)
  | some scope => do
    match ← settings.read files path with
    | none => return unchanged tree
    | some entry => tree.create scope entry

/-- Replaces the node of a path by what is read there now. -/
def updatePath (settings : Settings) (files : Files) (tree : Tree) (path : Path) :
    Except Fault Outcome :=
  match path.parentName? with
  | none => .ok (unchanged tree)
  | some scope => do
    match ← settings.read files path with
    | none => return unchanged tree
    | some entry => tree.update scope entry

/-- Removes the node of a path. -/
def removePath (tree : Tree) (path : Path) : Except Fault Outcome :=
  match path.parentName? with
  | none => .ok (unchanged tree)
  | some scope => tree.delete scope path.fileName

/-- What an event does to a tree. A move is a removal followed, if that succeeds, by an addition. -/
def apply (settings : Settings) (files : Files) (tree : Tree) :
    FileEvent → Except Fault Outcome
  | .created path => addPath settings files tree path
  | .copied source target =>
    if settings.supports source then addPath settings files tree target
    else .ok (unchanged tree)
  | .deleted path => removePath tree path
  | .moved source target => do
    let removed ← removePath tree source
    match removed.result with
    | .error _ => return removed
    | .ok _ => addPath settings files removed.tree target
  | .contentChanged path =>
    if settings.supports path then updatePath settings files tree path
    else .ok (unchanged tree)
  | .renamed path previous name =>
    match path.parentName? with
    | none => .ok (unchanged tree)
    | some scope => .ok (tree.rename scope previous name)
  | .propertyChanged _ _ => .ok (unchanged tree)

/-- Applies one event to the tree of a session. -/
def dispatch (session : Session) (files : Files) (event : FileEvent) :
    Except Fault (Step Unit) := do
  let outcome ← apply session.settings files session.tree event
  return ⟨{ session with tree := outcome.tree }, outcome.result.mapError Failure.tree⟩

/-- Applies events in order up to the first that fails, and counts them. -/
def runFrom (session : Session) (files : Files) (dispatched : Nat) :
    List FileEvent → Except Fault (Step Nat)
  | [] => .ok ⟨session, .ok dispatched⟩
  | event :: events => do
    let step ← session.dispatch files event
    match step.result with
    | .error failure => return ⟨step.session, .error failure⟩
    | .ok _ => step.session.runFrom files (dispatched + 1) events

/-- Applies events in order up to the first that fails, and counts them. -/
def run (session : Session) (files : Files) (events : List FileEvent) :
    Except Fault (Step Nat) :=
  session.runFrom files 0 events

/-- Scans the project anew and starts over with a new tree. The mailboxes of the old tree are cut
off. If the scan fails, the session stays as it was. -/
def refresh (session : Session) (files : Files) : Except Fault (Step Unit) := do
  match ← freshTree session.settings files session.project with
  | .error failure => return ⟨session, .error failure⟩
  | .ok tree =>
    let observers := session.tree.observers.disconnect session.tree.forest.places
    return ⟨{ session with tree := { tree with observers } }, .ok ()⟩

end Session

end CodeCensus

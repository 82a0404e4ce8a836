import CodeCensus.Files.Basic
import CodeCensus.Project.Failure
import CodeCensus.Settings.Basic
import CodeCensus.Source.Recognizer

/-!
# Reading a project

A directory becomes a package of what can be read in it, in order of names; a source file becomes
what the recogniser finds. Excluded directories, files with other extensions, and what cannot be
listed, read or recognised are left out.

A scan reads a whole project into a module: its configured modules if it has some, else what lies
directly in it.
-/

namespace CodeCensus

namespace Settings

/-- Whether a path names a source file. -/
def supports (settings : Settings) (path : Path) : Bool :=
  path.hasExtension settings.supportedExtensions

/-- Whether a path leads to a directory that is passed over. -/
def excludes (settings : Settings) (files : Files) (path : Path) : Bool :=
  files.isDirectory path && settings.excludedDirs.contains path.fileName

/-- The entry of a source file, if it can be read and recognised. -/
def readFile (settings : Settings) (files : Files) (path : Path) :
    Except Fault (Option Entry) :=
  if files.isFile path && settings.supports path then
    match files.read path with
    | .ok contents => Source.recognize path.fileName contents
    | .error _ => .ok none
  else
    .ok none

/-- The entry for a path, at most the given number of levels deep. -/
def readLevels (settings : Settings) (files : Files) :
    Nat → Path → Except Fault (Option Entry)
  | 0, _ => .ok none
  | levels + 1, path =>
    if settings.excludes files path then .ok none
    else if files.isDirectory path then
      match files.list path with
      | none => .ok none
      | some children => do
        let entries ← children.mapM (settings.readLevels files levels)
        let package ← Entry.aggregate .package path.fileName (entries.filterMap id)
        return some package
    else
      settings.readFile files path

/-- The entry for a path: a package for a directory, a source file for a file, nothing for what is
left out. -/
def read (settings : Settings) (files : Files) (path : Path) : Except Fault (Option Entry) :=
  settings.readLevels files (files.depth + 1) path

/-- The entries for what lies directly in a directory, in order of names. -/
def readChildren (settings : Settings) (files : Files) (path : Path) :
    Except Fault (Except Failure (List Entry)) :=
  match files.list path with
  | none => .ok (.error (.operation ("list directory: " ++ path.text)))
  | some children => do
    let entries ← children.mapM (settings.read files)
    return .ok (entries.filterMap id)

/-- The entry for a module directory, if it is there and can be read. -/
def readModule (settings : Settings) (files : Files) (path : Path) :
    Except Fault (Option Entry) :=
  if files.isDirectory path then do
    let entry ← settings.read files path
    return entry.map (Entry.withKind .module)
  else
    .ok none

/-- The name of a project: the last name of its path, or the whole path if it ends without one. -/
def projectName (project : Path) : String :=
  if project.fileName.isEmpty then project.text else project.fileName

/-- The units at the top of a project. -/
def readTop (settings : Settings) (files : Files) (project : Path) :
    Except Fault (Except Failure (List Entry)) :=
  if settings.modules.isEmpty then settings.readChildren files project
  else do
    let entries ← settings.modules.mapM fun name =>
      settings.readModule files (project.join ⟨name⟩)
    return .ok (entries.filterMap id)

/-- The entry of a whole project. -/
def scan (settings : Settings) (files : Files) (project : Path) :
    Except Fault (Except Failure Entry) :=
  if !files.present project then .ok (.error (.projectNotFound project))
  else if !files.isDirectory project then .ok (.error (.notADirectory project))
  else do
    match ← settings.readTop files project with
    | .error failure => return .error failure
    | .ok nested =>
      let entry ← Entry.aggregate .module (projectName project) nested
      return .ok entry

end Settings

end CodeCensus

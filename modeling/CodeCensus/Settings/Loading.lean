import CodeCensus.Files.Basic
import CodeCensus.Path.Expansion
import CodeCensus.Project.Failure
import CodeCensus.Settings.Document
import CodeCensus.Settings.Variables

/-!
# Loading settings

Settings come in layers, each over those before it: the standard settings, the global file, the
file of the project, and the environment. At the end the variables in module paths are expanded.
-/

namespace CodeCensus

/-- The global settings file: below the configuration directory that the environment names by an
absolute path, else below the home directory. -/
def globalSettingsPath? (environment : Environment) : Option Path :=
  let file : Path := ⟨"strucount/strucount.toml"⟩
  match ((environment.value? "XDG_CONFIG_HOME").map Path.mk).filter Path.isAbsolute with
  | some directory => if environment.home?.isSome then some (directory.join file) else none
  | none => environment.home?.map fun home => ((Path.mk home).join ⟨".config"⟩).join file

/-- The settings file of a project. -/
def projectSettingsPath (project : Path) : Path :=
  project.join ⟨".strucount.toml"⟩

/-- The layer in a file. -/
def Layer.load (files : Files) (path : Path) : Except Failure Layer :=
  match files.read path with
  | .error failure => .error (.config ("read " ++ path.text ++ ": " ++ failure.message))
  | .ok contents =>
    match Layer.parse? contents with
    | some layer => .ok layer
    | none => .error (.config ("parse " ++ path.text ++ ": " ++ Toml.parseFailure))

/-- The layer in a file that need not be there. -/
def Layer.loadIfPresent (files : Files) : Option Path → Except Failure Layer
  | some path => if files.present path then Layer.load files path else .ok .silent
  | none => .ok .silent

namespace Settings

/-- Settings with the variables in their module paths expanded. -/
def expandModules (settings : Settings) (environment : Environment) : Settings :=
  { settings with modules := settings.modules.map (Path.expand environment) }

/-- The settings that the files of a project leave, before the environment. -/
def ofFiles (files : Files) (globalFile project : Option Path) : Except Failure Settings := do
  let shared ← Layer.loadIfPresent files globalFile
  let own ← Layer.loadIfPresent files (project.map projectSettingsPath)
  return (standard.replaceBy shared).mergeWith own

/-- The settings for a project, with an explicit global file. -/
def load (files : Files) (environment : Environment) (globalFile project : Option Path) :
    Except Fault (Except Failure Settings) :=
  match ofFiles files globalFile project with
  | .error failure => .ok (.error failure)
  | .ok settings => do
    let spoken ← Layer.ofEnvironment environment
    return .ok ((settings.replaceBy spoken).expandModules environment)

end Settings

end CodeCensus

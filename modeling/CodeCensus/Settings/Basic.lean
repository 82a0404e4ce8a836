import CodeCensus.Tree.Drawing

/-!
# Settings

What is read as source, what is passed over, which directories are modules, and what a drawing
shows.
-/

namespace CodeCensus

/-- The settings that a project is read and drawn with. -/
structure Settings where
  /-- Extensions of source files, without the dot. -/
  supportedExtensions : List String
  /-- Names of directories that are passed over. -/
  excludedDirs : List String
  /-- Module directories below the project; without any, the project itself is the module. -/
  modules : List String
  drawing : DrawingOptions
deriving DecidableEq, Repr

/-- The settings that hold where nothing else is said. -/
def Settings.standard : Settings where
  supportedExtensions := ["java"]
  excludedDirs := [".git", ".idea", "build", "out", "target"]
  modules := []
  drawing := ⟨true, true⟩

instance : Inhabited Settings := ⟨.standard⟩

end CodeCensus

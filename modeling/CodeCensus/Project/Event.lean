import CodeCensus.Path

/-!
# File events

What a watcher or a script reports about the files of a project.
-/

namespace CodeCensus

/-- A change to one file or directory. -/
inductive FileEvent
  | created (path : Path)
  | copied (source target : Path)
  | deleted (path : Path)
  | moved (source target : Path)
  | contentChanged (path : Path)
  /-- The file or directory has a new name; the path may be the old or the new one. -/
  | renamed (path : Path) (previous name : String)
  /-- Some other property changed. -/
  | propertyChanged (path : Path) (property : String)
deriving DecidableEq, Repr

namespace FileEvent

/-- The word for the kind of an event. A new name is a property like any other. -/
def kind : FileEvent → String
  | .created _ => "create"
  | .copied _ _ => "copy"
  | .deleted _ => "delete"
  | .moved _ _ => "move"
  | .contentChanged _ => "content"
  | .renamed _ _ _ => "property"
  | .propertyChanged _ _ => "property"

/-- The text of an event. -/
def describe : FileEvent → String
  | .created path => "create " ++ path.text
  | .copied source target => "copy " ++ source.text ++ " -> " ++ target.text
  | .deleted path => "delete " ++ path.text
  | .moved source target => "move " ++ source.text ++ " -> " ++ target.text
  | .contentChanged path => "content " ++ path.text
  | .renamed path previous name =>
    "rename " ++ path.text ++ " (" ++ previous ++ " -> " ++ name ++ ")"
  | .propertyChanged path property => "property " ++ path.text ++ " (" ++ property ++ ")"

end FileEvent

end CodeCensus

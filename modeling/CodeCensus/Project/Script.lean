import CodeCensus.Files.Basic
import CodeCensus.Project.Event
import CodeCensus.Project.Failure
import CodeCensus.Toml.Document

/-!
# Event scripts

An event script is a TOML document with a list `event`. Each event is a table with a `kind` and the
fields of that kind, or an array of the kind and its fields in order. Paths lie below the project.
-/

namespace CodeCensus

open CodeCensus.Toml

/-- Why an event of a script is no event of a project. -/
inductive ScriptFault
  | emptyPath
  | emptyName
deriving DecidableEq, Repr

/-- The text of a script fault. -/
def ScriptFault.message : ScriptFault → String
  | .emptyPath => "empty path"
  | .emptyName => "rename needs non-empty 'old' and 'new'"

/-- The kinds of events in scripts. -/
inductive ScriptKind
  | create
  | copy
  | delete
  | move
  | content
  | rename
  | property
deriving DecidableEq, Repr

namespace ScriptKind

/-- The kind that a word names. -/
def ofWord? : String → Option ScriptKind
  | "create" => some .create
  | "copy" => some .copy
  | "delete" => some .delete
  | "move" => some .move
  | "content" => some .content
  | "rename" => some .rename
  | "property" => some .property
  | _ => none

/-- The fields of a kind, in order. -/
def fields : ScriptKind → List String
  | .create => ["path"]
  | .copy => ["source", "new_path"]
  | .delete => ["path"]
  | .move => ["old_path", "new_path"]
  | .content => ["path"]
  | .rename => ["path", "old", "new"]
  | .property => ["path", "property"]

end ScriptKind

/-- A kind with the contents of its fields, in order. -/
structure ScriptEvent where
  kind : ScriptKind
  contents : List String
deriving DecidableEq, Repr

/-- The event that a value of a document describes. -/
def ScriptEvent.ofValue? : Value → Option ScriptEvent
  | .table _ entries => do
    let kind ← ScriptKind.ofWord? (← (← entries.lookup "kind").text?)
    let contents ← kind.fields.mapM fun key => (entries.lookup key).bind Value.text?
    return ⟨kind, contents⟩
  | .array _ (first :: values) => do
    let kind ← ScriptKind.ofWord? (← first.text?)
    let contents ← values.mapM Value.text?
    if contents.length = kind.fields.length then some ⟨kind, contents⟩ else none
  | _ => none

/-- A path below a project. -/
def placed (project : Path) (text : String) : Except ScriptFault Path :=
  if text.isEmpty then .error .emptyPath else .ok (project.join ⟨text⟩)

/-- The event of a project that an event of a script stands for. -/
def ScriptEvent.resolve (project : Path) (event : ScriptEvent) : Except ScriptFault FileEvent :=
  match event.kind, event.contents with
  | .create, [path] => return .created (← placed project path)
  | .copy, [source, target] =>
    return .copied (← placed project source) (← placed project target)
  | .delete, [path] => return .deleted (← placed project path)
  | .move, [source, target] =>
    return .moved (← placed project source) (← placed project target)
  | .content, [path] => return .contentChanged (← placed project path)
  | .rename, [path, previous, name] =>
    if previous.isEmpty || name.isEmpty then .error .emptyName
    else return .renamed (← placed project path) previous name
  | .property, [path, property] => return .propertyChanged (← placed project path) property
  | _, _ => .error .emptyPath

/-- The events that a document describes. -/
def scriptEvents? (document : String) : Option (List ScriptEvent) := do
  let entries ← Toml.parse? document
  match entries.lookup "event" with
  | none => some []
  | some (.array _ items) => items.mapM ScriptEvent.ofValue?
  | some _ => none

/-- Resolves the events of a script, counted from the given number on. -/
def resolveFrom (origin project : Path) (number : Nat) :
    List ScriptEvent → Except Failure (List FileEvent)
  | [] => .ok []
  | event :: events =>
    match event.resolve project with
    | .error fault =>
      .error (.eventScript origin ("event " ++ toString number ++ ": " ++ fault.message))
    | .ok resolved => do
      let more ← resolveFrom origin project (number + 1) events
      return resolved :: more

/-- The events of a script. The origin only names the script in failures. -/
def parseScript (contents : String) (origin project : Path) : Except Failure (List FileEvent) :=
  match scriptEvents? contents with
  | none => .error (.eventScript origin Toml.parseFailure)
  | some events => resolveFrom origin project 1 events

/-- The events of the script in a file. -/
def loadScript (files : Files) (script project : Path) : Except Failure (List FileEvent) :=
  match files.read script with
  | .error _ => .error (.io ("read event script " ++ script.text))
  | .ok contents => parseScript contents script project

end CodeCensus

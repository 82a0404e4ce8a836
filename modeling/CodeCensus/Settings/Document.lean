import CodeCensus.Settings.Merge
import CodeCensus.Toml.Document
import CodeCensus.Toml.Writer

/-!
# Settings as documents

A settings document is a TOML document with a key for each list and a table `render` for the flags
of drawings. Reading one gives a layer; unknown keys say nothing, and a key with a value of another
form refuses the document.
-/

namespace CodeCensus

open CodeCensus.Toml

/-- What a reader makes of the value of a key, if the key is there. -/
def optional? {α : Type} (read? : Value → Option α) : Option Value → Option (Option α)
  | none => some none
  | some value => (read? value).map some

/-- The flags of drawings: named in a table, or the first two items of an array. A date or time is a
table without flags. -/
def drawingFlags? : Option Value → Option (Option Bool × Option Bool)
  | none => some (none, none)
  | some (.table _ entries) => do
    let showFunctions ← optional? Value.boolean? (entries.lookup "show_functions")
    let showCounts ← optional? Value.boolean? (entries.lookup "show_counts")
    return (showFunctions, showCounts)
  | some (.array _ items) => do
    let showFunctions ← optional? Value.boolean? items[0]?
    let showCounts ← optional? Value.boolean? items[1]?
    return (showFunctions, showCounts)
  | some (.moment _) => some (none, none)
  | some _ => none

/-- The layer that a document holds. -/
def Layer.parse? (document : String) : Option Layer := do
  let entries ← Toml.parse? document
  let supportedExtensions ← optional? Value.texts? (entries.lookup "supported_extensions")
  let excludedDirs ← optional? Value.texts? (entries.lookup "excluded_dirs")
  let modules ← optional? Value.texts? (entries.lookup "modules")
  let (showFunctions, showCounts) ← drawingFlags? (entries.lookup "render")
  return { supportedExtensions, excludedDirs, modules, showFunctions, showCounts }

/-- The document that shows settings in full. -/
def Settings.toDocument (settings : Settings) : Except Fault String := do
  let supportedExtensions ← writeTexts settings.supportedExtensions
  let excludedDirs ← writeTexts settings.excludedDirs
  let modules ← writeTexts settings.modules
  return "supported_extensions = " ++ supportedExtensions ++ "\n" ++
    "excluded_dirs = " ++ excludedDirs ++ "\n" ++
    "modules = " ++ modules ++ "\n" ++
    "\n" ++
    "[render]\n" ++
    "show_functions = " ++ writeBoolean settings.drawing.showFunctions ++ "\n" ++
    "show_counts = " ++ writeBoolean settings.drawing.showCounts ++ "\n"

end CodeCensus

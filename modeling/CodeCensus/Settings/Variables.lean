import CodeCensus.Environment
import CodeCensus.Path
import CodeCensus.Settings.Merge
import CodeCensus.Settings.VariableTree
import CodeCensus.Text.Split

/-!
# Settings from environment variables

A variable speaks of a setting if its name, capitals aside, is the program's prefix followed by a
path to the setting, with two underscores in place of each dot. A value that reads as a truth value
or a number is one; else it is a list at the commas where a list is wanted, and a word anywhere
else. What does not fit its setting is ignored.
-/

namespace CodeCensus

/-- The settings that are lists. -/
def listSettings : List String := ["supported_extensions", "excluded_dirs", "modules"]

/-- The items of a text between commas. -/
def itemsOf (text : String) : List String :=
  (Text.splitAll ',' text.toList).map String.ofList

namespace VariableTree

/-- What the value of a variable for a setting reads as. -/
def read (setting : String) (text : String) : VariableTree :=
  let folded := Path.foldCase text
  if folded = "true".toList then .flag true
  else if folded = "false".toList then .flag false
  else
    match Decimal.word? text.toList with
    | some value => .whole value
    | none =>
      match Decimal.spelled? text.toList with
      | some value => .number value
      | none => if listSettings.contains setting then .ofWords (itemsOf text) else .word text

/-- The truth value that a value stands for; numbers other than zero are true. -/
def truth? : VariableTree → Option Bool
  | .flag value => some value
  | .whole value => some (value != 0)
  | .number value => some (!value.isZero)
  | .word text =>
    let folded := String.ofList (Path.foldCase text)
    if ["on", "yes"].contains folded then some true
    else if ["off", "no"].contains folded then some false
    else none
  | _ => none

end VariableTree

/-- What the names of variables for settings start with. -/
def variableStart : List Char := "strucount_".toList

/-- The text with pairs of underscores, from the left, replaced by dots. -/
def dotted : List Char → List Char
  | '_' :: '_' :: rest => '.' :: dotted rest
  | c :: rest => c :: dotted rest
  | [] => []

/-- The small form of a character in the name of a variable: of an ASCII capital, or of the Kelvin
sign, which is a capital K. No other character has a small form in ASCII. -/
def smallForm (c : Char) : Char :=
  if c = '\u212A' then 'k' else c.toLower

/-- The setting, or part of one, that the name of a variable speaks of. -/
def settingOf? (name : String) : Option String :=
  (variableStart.isPrefixOf? (name.toList.map smallForm)).map fun rest =>
    String.ofList (dotted rest)

/-- Places what a variable says about a setting. -/
def placeVariable (tree : VariableTree) (named : String × String) :
    Except Fault VariableTree :=
  match settingOf? named.1 with
  | none => .ok tree
  | some setting =>
    match VariableStep.readPath? setting with
    | none => .ok tree
    | some steps => (VariableTree.read setting named.2).place steps tree

/-- What an environment says about settings, one variable after the other. -/
def Environment.settings (environment : Environment) : Except Fault VariableTree :=
  environment.bindings.foldlM placeVariable (.table [])

/-- The layer of an environment. -/
def Layer.ofEnvironment (environment : Environment) : Except Fault Layer := do
  let tree ← environment.settings
  let list (setting : String) := (tree.entry? setting).bind VariableTree.texts?
  let flag (setting : String) :=
    ((tree.entry? "render").bind (VariableTree.entry? setting)).bind VariableTree.truth?
  return {
    supportedExtensions := list "supported_extensions"
    excludedDirs := list "excluded_dirs"
    modules := list "modules"
    showFunctions := flag "show_functions"
    showCounts := flag "show_counts" }

end CodeCensus

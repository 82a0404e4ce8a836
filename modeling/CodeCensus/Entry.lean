import CodeCensus.Count

/-!
# Entries

An `Entry` is a snapshot of one structural unit: a module, package, source file, class or function,
with its counters and its nested entries. The counters of an entry are what its producer says they
are; the builders below derive them from the nested entries.
-/

namespace CodeCensus

/-- The units that carry counters and may hold others. -/
inductive BranchKind
  | module
  | package
  | sourceFile
  | classLike
deriving DecidableEq, Repr, Inhabited

/-- The kind of a structural unit. Functions are terminal: no counters, nothing inside. -/
inductive Kind
  | branch (kind : BranchKind)
  | function
deriving DecidableEq, Repr, Inhabited

namespace Kind

@[match_pattern] abbrev module : Kind := .branch .module

@[match_pattern] abbrev package : Kind := .branch .package

@[match_pattern] abbrev sourceFile : Kind := .branch .sourceFile

@[match_pattern] abbrev classLike : Kind := .branch .classLike

/-- Whether units of this kind are terminal. -/
def isLeaf : Kind → Bool
  | .branch _ => false
  | .function => true

/-- All kinds, outermost first. -/
def all : List Kind := [.module, .package, .sourceFile, .classLike, .function]

/-- The name of a kind in full. -/
def describe : Kind → String
  | .module => "module"
  | .package => "package"
  | .sourceFile => "source file"
  | .classLike => "class"
  | .function => "function"

/-- The kind with the given full name. -/
def ofName? (name : String) : Option Kind :=
  all.find? fun kind => kind.describe == name

/-- The short mark in front of a unit's name in a drawing. -/
def tag : Kind → String
  | .module => "[M]"
  | .package => "[P]"
  | .sourceFile => "[F]"
  | .classLike => "[C]"
  | .function => "[f]"

end Kind

/-- Snapshot of a structural unit. -/
structure Entry where
  kind : Kind
  name : String
  counts : Count
  nested : List Entry
deriving Repr

namespace Entry

instance : Inhabited Entry := ⟨⟨.function, "", 0, []⟩⟩

/-- A function: nothing counted, nothing nested. -/
def function (name : String) : Entry :=
  ⟨.function, name, 0, []⟩

/-- A container whose counters are the sum of those of its nested entries. -/
def aggregate (kind : Kind) (name : String) (nested : List Entry) : Except Fault Entry := do
  let counts ← Count.total (nested.map Entry.counts)
  return ⟨kind, name, counts, nested⟩

/-- A class: one function for each nested entry, and no class. -/
def ofClass (name : String) (nested : List Entry) : Entry :=
  ⟨.classLike, name, ⟨0, nested.length⟩, nested⟩

/-- A source file: one class for each nested entry, and the functions of all of them. -/
def sourceFile (name : String) (nested : List Entry) : Except Fault Entry := do
  let functions ← Count.total (nested.map fun entry => ⟨0, entry.counts.functions⟩)
  return ⟨.sourceFile, name, ⟨nested.length, functions.functions⟩, nested⟩

/-- The same entry under another kind. -/
def withKind (kind : Kind) (entry : Entry) : Entry :=
  { entry with kind }

end Entry

end CodeCensus

import CodeCensus.Text.Split

/-!
# Paths

A path is a text of components between slashes. Empty components and single dots say nothing,
except for a dot at the very front; two dots lead to the parent. Joining keeps both texts as they
are written.
-/

namespace CodeCensus

open CodeCensus.Text

/-- A path as written. -/
structure Path where
  text : String
deriving DecidableEq, Repr, Inhabited

namespace Path

/-- A component that says something. -/
inductive Component
  /-- The slash at the front of an absolute path. -/
  | root
  /-- A dot at the front of a relative path. -/
  | here
  /-- Two dots. -/
  | up
  | name (text : String)
deriving DecidableEq, Repr

/-- Whether a path starts at the root. -/
def isAbsolute (path : Path) : Bool :=
  path.text.toList.head? == some '/'

/-- The component that a piece between slashes stands for. -/
def component? (piece : List Char) : Option Component :=
  if piece = [] ∨ piece = ['.'] then none
  else if piece = ['.', '.'] then some .up
  else some (.name (String.ofList piece))

/-- The components of a path, in order. -/
def components (path : Path) : List Component :=
  let pieces := splitAll '/' path.text.toList
  let start : List Component :=
    if path.isAbsolute then [.root]
    else if pieces.head? = some ['.'] then [.here]
    else []
  start ++ pieces.filterMap component?

/-- The text of a component that is a name. -/
def Component.name? : Component → Option String
  | .name text => some text
  | _ => none

/-- The last component, if it is a name. -/
def fileName? (path : Path) : Option String :=
  path.components.getLast?.bind Component.name?

/-- The last component if it is a name, and otherwise nothing. -/
def fileName (path : Path) : String :=
  path.fileName?.getD ""

/-- The name of the directory that contains a path, if the path says it. -/
def parentName? (path : Path) : Option String :=
  path.components.dropLast.getLast?.bind Component.name?

/-- What follows the last dot of the file name. A name without a dot, or whose only dot is its
first character, has no extension. -/
def extension? (path : Path) : Option String :=
  path.fileName?.bind fun name =>
    let reversed := name.toList.reverse
    let stem := (reversed.dropWhile (· != '.')).tail
    if stem.isEmpty then none
    else some (String.ofList (reversed.takeWhile (· != '.')).reverse)

/-- The text with ASCII capitals made small. -/
def foldCase (text : String) : List Char :=
  text.toList.map Char.toLower

/-- Whether the extension of a path is one of the given, capitals aside. -/
def hasExtension (path : Path) (extensions : List String) : Bool :=
  path.extension?.any fun extension =>
    extensions.any fun known => foldCase known == foldCase extension

/-- A path below another. An absolute path below another is itself. -/
def join (base below : Path) : Path :=
  if below.isAbsolute || base.text.isEmpty then below
  else if base.text.toList.getLast? == some '/' then ⟨base.text ++ below.text⟩
  else ⟨base.text ++ "/" ++ below.text⟩

end Path

end CodeCensus

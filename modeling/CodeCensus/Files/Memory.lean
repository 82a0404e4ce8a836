import CodeCensus.Files.Basic
import CodeCensus.Path.Location
import CodeCensus.Text.Order

/-!
# Files kept in memory

Every path means its location. A location can be a file and a directory at once. Nothing exists in
the beginning.
-/

namespace CodeCensus

/-- Directories, file contents, and locations that cannot be read or listed. -/
structure MemoryFiles where
  directories : List Location
  contents : List (Location × ByteArray)
  denied : List Location

namespace MemoryFiles

/-- Nothing exists. -/
def empty : MemoryFiles := ⟨[], [], []⟩

/-- Makes locations directories, with everything above them. -/
def addDirectory (files : MemoryFiles) (location : Location) : MemoryFiles :=
  { files with
    directories := location.levels.foldl
      (fun known level => if known.contains level then known else level :: known)
      files.directories }

/-- Gives a location contents and makes everything above it a directory. Nothing lies above the
empty location. -/
def addFile (files : MemoryFiles) (location : Location) (bytes : ByteArray) : MemoryFiles :=
  let placed := if location.isEmpty then files else files.addDirectory location.dropLast
  { placed with
    contents := (location, bytes) :: placed.contents.filter fun entry => entry.1 != location }

/-- Removes a location and all beneath it. -/
def remove (files : MemoryFiles) (location : Location) : MemoryFiles :=
  { files with
    directories := files.directories.filter fun known => !location.isPrefixOf known
    contents := files.contents.filter fun entry => !location.isPrefixOf entry.1 }

/-- Makes a location unreadable. -/
def deny (files : MemoryFiles) (location : Location) : MemoryFiles :=
  { files with denied := location :: files.denied.filter (· != location) }

/-- Makes a location readable again. -/
def allow (files : MemoryFiles) (location : Location) : MemoryFiles :=
  { files with denied := files.denied.filter (· != location) }

/-- The contents at a location. -/
def bytesAt? (files : MemoryFiles) (location : Location) : Option ByteArray :=
  (files.contents.find? fun entry => entry.1 == location).map Prod.snd

/-- The last component of a location directly in another. -/
def childName? (parent known : Location) : Option String :=
  if known.dropLast = parent then known.getLast? else none

/-- The distinct names directly in a location, in order. -/
def childNames (files : MemoryFiles) (location : Location) : List String :=
  Text.sortDistinct
    ((files.directories ++ files.contents.map Prod.fst).filterMap (childName? location))

/-- The length of the longest known location. -/
def longest (files : MemoryFiles) : Nat :=
  (files.directories ++ files.contents.map Prod.fst).foldl
    (fun length location => max length location.length) 0

/-- The view of files in memory. -/
def view (files : MemoryFiles) : Files where
  isDirectory path := files.directories.contains path.location
  isFile path := (files.bytesAt? path.location).isSome
  read path :=
    let location := path.location
    if files.denied.contains location then .error .denied
    else
      match files.bytesAt? location with
      | none => .error .notFound
      | some bytes => textOfBytes bytes
  list path :=
    let location := path.location
    if files.denied.contains location || !files.directories.contains location then none
    else some ((files.childNames location).map fun name => path.join ⟨name⟩)
  depth := files.longest + 1

end MemoryFiles

end CodeCensus

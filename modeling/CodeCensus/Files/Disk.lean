import CodeCensus.Files.Basic
import CodeCensus.Text.Order

/-!
# Files resolved component by component

A disk is a tree of directories and files with a working directory. A path is followed one component
at a time: every component before the last, two dots included, must lie in a directory that is
there, and a path that ends with a slash or a dot leads to a directory.
-/

namespace CodeCensus

/-- A file with its bytes, or a directory with named entries. -/
inductive DiskNode
  | file (bytes : ByteArray)
  | directory (entries : List (String × DiskNode))

namespace DiskNode

mutual

/-- How many levels of directories and files there are. -/
def height : DiskNode → Nat
  | .file _ => 1
  | .directory entries => heightAll entries + 1

/-- The levels below the entries of a directory. -/
def heightAll : List (String × DiskNode) → Nat
  | [] => 0
  | (_, node) :: entries => max node.height (heightAll entries)

end

/-- The entry of a directory with the given name. -/
def entry? (name : String) : DiskNode → Option DiskNode
  | .file _ => none
  | .directory entries => entries.lookup name

/-- What stands at a place once some names below it lead to a file with the given bytes, or to a
directory without any. Directories on the way are made as needed; a file in the way is an
obstacle. -/
def write? (bytes : Option ByteArray) : List String → Option DiskNode → Option DiskNode
  | [], none =>
    match bytes with
    | some bytes => some (.file bytes)
    | none => some (.directory [])
  | [], some (.directory entries) => if bytes.isSome then none else some (.directory entries)
  | [], some (.file _) => bytes.map .file
  | name :: names, none => do
    let below ← write? bytes names none
    return .directory [(name, below)]
  | _ :: _, some (.file _) => none
  | name :: names, some (.directory entries) => do
    let below ← write? bytes names (entries.lookup name)
    return .directory ((name, below) :: entries.filter fun entry => entry.1 != name)

end DiskNode

/-- A tree of files and the working directory, as names from the root. -/
structure Disk where
  top : DiskNode
  working : List String

namespace Disk

/-- A disk with nothing but its root. -/
def empty : Disk := ⟨.directory [], []⟩

/-- Follows components from a directory, given with the directories above it, nearest first. -/
def follow : List DiskNode → List Path.Component → Except ReadFailure DiskNode
  | [], _ => .error .notFound
  | node :: _, [] => .ok node
  | node :: above, component :: rest =>
    match node with
    | .file _ => .error .notADirectory
    | .directory entries =>
      match component with
      | .root | .here => follow (node :: above) rest
      | .up => follow (if above.isEmpty then [node] else above) rest
      | .name name =>
        match entries.lookup name with
        | none => .error .notFound
        | some entry => follow (entry :: node :: above) rest

/-- Whether the text of a path says that it leads to a directory. -/
def endsInDirectory (path : Path) : Bool :=
  match (Text.splitAll '/' path.text.toList).getLast? with
  | some piece => piece == [] || piece == ['.']
  | none => false

/-- How many bytes a path may take, with a null at its end; nothing is found at a longer one. -/
def pathLimit : Nat := 4096

/-- What a path leads to. -/
def resolve (disk : Disk) (path : Path) : Except ReadFailure DiskNode :=
  if path.text.isEmpty || decide (pathLimit ≤ path.text.utf8ByteSize) then .error .notFound
  else
    let start := if path.isAbsolute then [] else disk.working.map Path.Component.name
    match follow [disk.top] (start ++ path.components) with
    | .ok (.file bytes) =>
      if endsInDirectory path then .error .notADirectory else .ok (.file bytes)
    | found => found

/-- The names of the entries of a directory, in order. -/
def entryNames (entries : List (String × DiskNode)) : List String :=
  Text.sortDistinct (entries.map Prod.fst)

/-- The view of files on a disk. A file lists as if it were an empty directory. -/
def view (disk : Disk) : Files where
  isDirectory path :=
    match disk.resolve path with
    | .ok (.directory _) => true
    | _ => false
  isFile path :=
    match disk.resolve path with
    | .ok (.file _) => true
    | _ => false
  read path :=
    match disk.resolve path with
    | .ok (.file bytes) => textOfBytes bytes
    | .ok (.directory _) => .error .isDirectory
    | .error failure => .error failure
  list path :=
    match disk.resolve path with
    | .ok (.directory entries) => some ((entryNames entries).map fun name => path.join ⟨name⟩)
    | .ok (.file _) => some []
    | .error _ => none
  depth := disk.top.height

end Disk

end CodeCensus

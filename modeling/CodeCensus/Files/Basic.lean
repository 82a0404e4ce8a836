import CodeCensus.Path

/-!
# Files as they are seen

The library sees files through a `Files` value: which paths are directories or files, what they
contain, and what lies directly in a directory. Two models of it are given, one kept in memory by
lists of components and one that resolves paths component by component.
-/

namespace CodeCensus

/-- Why the contents of a path cannot be read. -/
inductive ReadFailure
  | notFound
  | isDirectory
  | notADirectory
  | denied
  /-- The bytes are no text. -/
  | notText
deriving DecidableEq, Repr

/-- The text of a failure as an operating system words it. -/
def ReadFailure.message : ReadFailure → String
  | .notFound => "No such file or directory (os error 2)"
  | .isDirectory => "Is a directory (os error 21)"
  | .notADirectory => "Not a directory (os error 20)"
  | .denied => "Permission denied (os error 13)"
  | .notText => "stream did not contain valid UTF-8"

/-- A view of files and directories. -/
structure Files where
  isDirectory : Path → Bool
  isFile : Path → Bool
  read : Path → Except ReadFailure String
  /-- The paths directly in a directory, in order of their names; missing if it cannot be
  listed. -/
  list : Path → Option (List Path)
  /-- No directory chain has more levels. -/
  depth : Nat

/-- Whether a path leads anywhere. -/
def Files.present (files : Files) (path : Path) : Bool :=
  files.isDirectory path || files.isFile path

/-- The text in some bytes. -/
def textOfBytes (bytes : ByteArray) : Except ReadFailure String :=
  match String.fromUTF8? bytes with
  | some text => .ok text
  | none => .error .notText

end CodeCensus

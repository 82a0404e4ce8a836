import CodeCensus.Command.Line
import CodeCensus.Command.Run
import CodeCensus.Files.Disk
import CodeCensus.Path.Location

/-!
# The program

The outermost layer. It gathers what a request needs (the environment, the working directory, and a
`Disk` of the files in question), lets the library answer, and prints the answer.

Standard input lists the files and directories of a project, one path to a line, when a command
looks at a project. What stands at a path is looked up on the disk.
-/

namespace CodeCensus

/-- The lines of a stream up to its end. -/
partial def readLines (stream : IO.FS.Stream) (lines : Array String) : IO (Array String) := do
  let line ← stream.getLine
  if line.isEmpty then return lines
  readLines stream (lines.push (line.dropEndWhile (· == '\n')).toString)

/-- The text of a file that the system keeps, empty if it cannot be read. -/
def readSystemText (place : String) : IO String := do
  match ← (IO.FS.readBinFile place).toBaseIO with
  | .ok bytes => return (String.fromUTF8? bytes).getD ""
  | .error _ => return ""

/-- The number of the user whose process a text of its state describes. -/
def userOf? (state : String) : Option String :=
  (Text.splitAll '\n' state.toList).findSome? fun line =>
    match Text.splitAll '\t' line with
    | name :: user :: _ => if name = "Uid:".toList then some (String.ofList user) else none
    | _ => none

/-- The environment of this process. -/
def readEnvironment : IO Environment := do
  let bindings := Environment.variablesOf (← readSystemText "/proc/self/environ")
  let user? := userOf? (← readSystemText "/proc/self/status")
  let accounts ← readSystemText "/etc/passwd"
  return ⟨bindings, user?.bind (Environment.accountHome? accounts)⟩

/-- What stands at a path: a file with its bytes, a directory, or nothing that can be read. -/
def probe (path : Path) : IO (Option (Option ByteArray)) := do
  match ← (IO.FS.readBinFile path.text).toBaseIO with
  | .ok bytes => return some (some bytes)
  | .error (.inappropriateType _ 21 _) => return some none
  | .error _ => return none

/-- Enters what stands at a path into a tree of files. -/
def enterPath (working : Path) (top : DiskNode) (path : Path) : IO DiskNode := do
  let absolute := working.join path
  match ← probe absolute with
  | none => return top
  | some bytes => return (DiskNode.write? bytes (absolute.location.drop 1) (some top)).getD top

/-- A path and all paths on the way to it. -/
def wayTo (path : Path) : List Path :=
  let pieces := Text.splitAll '/' path.text.toList
  (List.range pieces.length).map fun last =>
    ⟨String.ofList (['/'].intercalate (pieces.take (last + 1)))⟩

/-- The paths that a request names or implies. -/
def Request.paths (request : Request) (environment : Environment) (working : Path) : List Path :=
  let project := request.project working
  let script : List Path := match request.command with
    | .replay script _ _ => [⟨script⟩]
    | _ => []
  [project, projectSettingsPath project] ++ (globalSettingsPath? environment).toList ++ script

/-- Whether a command looks at the files of a project. -/
def Command.looksAtProject : Command → Bool
  | .scan _ => true
  | .replay _ _ _ => true
  | .check _ => true
  | _ => false

/-- The disk that a request needs. -/
def readDisk (request : Request) (environment : Environment) (working : Path) : IO Disk := do
  let listed ←
    if request.command.looksAtProject then readLines (← IO.getStdin) #[] else pure #[]
  let named := (request.paths environment working).flatMap wayTo
  let top ← (named ++ listed.toList.map Path.mk).foldlM (enterPath working) Disk.empty.top
  return ⟨top, working.location.drop 1⟩

/-- The text of a fault. -/
def Fault.message : Fault → String
  | .counterOverflow => "a counter left its range"
  | .splitCharacter => "a text was cut inside a character"
  | .noSuchItem => "a list has no such item"
  | .quoteOverflow => "too many quotes in a row"

/-- Answers a command line. -/
def answerArguments (arguments : List String) : IO UInt32 := do
  let environment ← readEnvironment
  match Request.ofArguments environment arguments with
  | .error refusal =>
    let stream ← if refusal.exitCode = 0 then IO.getStdout else IO.getStderr
    stream.putStrLn refusal.message
    return refusal.exitCode.toUInt32
  | .ok request =>
    let working : Path := ⟨toString (← IO.currentDir)⟩
    let disk ← readDisk request environment working
    match request.run ⟨disk.view, environment, working⟩ with
    | .error fault =>
      IO.eprintln fault.message
      return 101
    | .ok report =>
      let colored := environment.wantsColor (← (← IO.getStdout).isTty)
      IO.print (report.output colored)
      IO.eprint (report.errors colored)
      return report.exitCode.toUInt32

end CodeCensus

/-- Runs the program. -/
def main (arguments : List String) : IO UInt32 :=
  CodeCensus.answerArguments arguments

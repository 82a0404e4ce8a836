import CodeCensus.Command.Request
import CodeCensus.Environment

/-!
# Reading a command line

Arguments are read from left to right, each at one level. A word that names a command leads to
the level below, where the rest is read before the level above is concluded. So of two mistakes, the
one at the deeper level counts.

A value is taken up only when the next one comes or the level ends: until then it is pending, and a
flag that is not known is told before a pending value that is not accepted.
-/

namespace CodeCensus

/-- What was said at one level. -/
structure Said where
  debug : Bool
  verbose : Bool
  projectDir : Option String
  script : Option String
  directory : Option String
  shell : Option Shell
deriving DecidableEq, Repr

/-- Nothing was said. -/
def Said.nothing : Said := ⟨false, false, none, none, none, none⟩

/-- A value that is not taken up yet. -/
inductive Pending
  | nothing
  /-- The flag for the project directory, with the value that followed it, if one did. -/
  | projectDir (value : Option String)
  | slot (slot : Slot) (value : String)
deriving DecidableEq, Repr

/-- The state of reading one level. -/
structure Reading where
  said : Said
  pending : Pending
  /-- The slots that are still free. -/
  slots : List Slot
  /-- Two dashes alone came before: no argument is a flag or a command any more. -/
  valuesOnly : Bool
deriving DecidableEq, Repr

/-- A value that may not be empty. -/
def nonempty (value : String) : Except Refusal String :=
  if value.isEmpty then .error .invalidValue else .ok value

namespace Said

/-- Takes up the value of a slot. -/
def fill (said : Said) (slot : Slot) (value : String) : Except Refusal Said :=
  match slot with
  | .script => do return { said with script := some (← nonempty value) }
  | .directory => do return { said with directory := some (← nonempty value) }
  | .shell =>
    match Shell.ofName? value with
    | some shell => .ok { said with shell := some shell }
    | none => .error .invalidValue

/-- Takes up the value of the flag for the project directory. -/
def setProjectDir (said : Said) : Option String → Except Refusal Said
  | none => .error .invalidValue
  | some value =>
    if said.projectDir.isSome then .error .conflict
    else do return { said with projectDir := some (← nonempty value) }

end Said

namespace Reading

/-- Nothing is read yet at a level. -/
def start (level : Level) : Reading := ⟨.nothing, .nothing, level.slots, false⟩

/-- Takes up a pending value. -/
def settle (reading : Reading) : Except Refusal Reading :=
  match reading.pending with
  | .nothing => .ok reading
  | .projectDir value => do
    return { reading with said := ← reading.said.setProjectDir value, pending := .nothing }
  | .slot slot value => do
    return { reading with said := ← reading.said.fill slot value, pending := .nothing }

/-- Reads a flag without a value in the same argument. -/
def mark (reading : Reading) (flag : Flag) : Except Refusal Reading := do
  let settled ← reading.settle
  match flag with
  | .help => throw .help
  | .version => throw .version
  | .debug => return { settled with said := { settled.said with debug := true } }
  | .projectDir => return { settled with pending := .projectDir none }
  | .verbose =>
    if settled.said.verbose then throw .conflict
    else return { settled with said := { settled.said with verbose := true } }

/-- Reads the flag for the project directory with a value in the same argument. -/
def attach (reading : Reading) (value : String) : Except Refusal Reading := do
  let settled ← reading.settle
  { settled with pending := .projectDir (some value) }.settle

end Reading

namespace Level

/-- Reads what follows two dashes: a flag, which may have a value after an equals sign. -/
def readLong (level : Level) (reading : Reading) (body : List Char) : Except Refusal Reading :=
  match level.longFlag? (String.ofList (body.takeWhile (· != '='))), body.dropWhile (· != '=') with
  | none, _ => .error .unknownArgument
  | some flag, [] => reading.mark flag
  | some .projectDir, _ :: value => reading.attach (String.ofList value)
  | some _, _ :: _ => .error .tooManyValues

/-- Reads the letters that follow one dash. The letter for the project directory takes the rest as
its value, less an equals sign at the front. -/
def readLetters (level : Level) : Reading → List Char → Except Refusal Reading
  | reading, [] => .ok reading
  | reading, letter :: rest =>
    match level.shortFlag? letter with
    | none => .error .unknownArgument
    | some .projectDir =>
      match rest with
      | [] => reading.mark .projectDir
      | '=' :: value => reading.attach (String.ofList value)
      | value => reading.attach (String.ofList value)
    | some flag => do level.readLetters (← reading.mark flag) rest

/-- Why a value without a free slot is refused. -/
def surplus (level : Level) (reading : Reading) (word : String) : Refusal :=
  if level.commands.isEmpty || (reading.valuesOnly && (level.select? word).isSome) then
    .unknownArgument
  else
    .unknownCommand

/-- Reads a value without a flag: for the flag that waits for one, else for the next free slot. -/
def readValue (level : Level) (reading : Reading) (word : String) : Except Refusal Reading :=
  if !reading.valuesOnly && reading.pending = .projectDir none then
    .ok { reading with pending := .projectDir (some word) }
  else
    match reading.slots with
    | [] => .error (level.surplus reading word)
    | slot :: slots => do
      return { ← reading.settle with pending := .slot slot word, slots }

/-- Reads an argument that names no command. One dash alone is a value. -/
def readArgument (level : Level) (reading : Reading) (argument : String) :
    Except Refusal Reading :=
  if reading.valuesOnly then level.readValue reading argument
  else
    match argument.toList with
    | ['-', '-'] => .ok { reading with valuesOnly := true }
    | '-' :: '-' :: body => level.readLong reading body
    | '-' :: letter :: rest => level.readLetters reading (letter :: rest)
    | _ => level.readValue reading argument

/-- What an argument asks for if a command may stand there. -/
def selected? (level : Level) (reading : Reading) (argument : String) : Option Selection :=
  if reading.valuesOnly || reading.pending = .projectDir none then none
  else level.select? argument

/-- The answer to words that ask for an explanation: each names a command below the one before. -/
def explain : Level → List String → Refusal
  | _, [] => .help
  | level, word :: words =>
    match level.select? word with
    | none => .unknownCommand
    | some .help => if words.isEmpty then .help else .unknownCommand
    | some (.command below) => below.explain words

/-- The command that a level stands for when no command below it was named. -/
def command (level : Level) (environmentDir : Option String) (said : Said) :
    Except Refusal Command :=
  match level with
  | .program => .ok .overview
  | .scan => .ok (.scan said.directory)
  | .replay =>
    match said.script with
    | some script => .ok (.replay script said.directory said.verbose)
    | none => .error .missingArgument
  | .check => .ok (.check said.directory)
  | .config =>
    .error (if said.debug || said.projectDir.isSome || environmentDir.isSome then .missingCommand
      else .helpForMissingCommand)
  | .configShow => .ok .showSettings
  | .configPath => .ok .showSettingsPaths
  | .completion =>
    match said.shell with
    | some shell => .ok (.completion shell)
    | none => .error .missingArgument

/-- Concludes a level: pending values are taken up, and the environment speaks where no flag did.
The project directory of a deeper level comes first. -/
def conclude (level : Level) (environmentDir : Option String) (reading : Reading)
    (below : Option Request) : Except Refusal Request := do
  let settled ← reading.settle
  let said := settled.said
  if said.projectDir.isNone && environmentDir = some "" then throw .invalidValue
  match below with
  | some request => return { request with projectDir := request.projectDir <|> said.projectDir }
  | none => return ⟨← level.command environmentDir said, said.projectDir⟩

/-- Reads arguments from a state of a level on. -/
def read (environmentDir : Option String) :
    Level → Reading → List String → Except Refusal Request
  | level, reading, [] => level.conclude environmentDir reading none
  | level, reading, argument :: rest =>
    match level.selected? reading argument with
    | some .help => .error (level.explain rest)
    | some (.command below) => do
      let request ← read environmentDir below (.start below) rest
      level.conclude environmentDir reading (some request)
    | none => do
      let next ← level.readArgument reading argument
      read environmentDir level next rest

end Level

/-- The variable that names the project directory where no flag does. -/
def projectDirVariable : String := "STRUCOUNT_PROJECT_DIR"

/-- What a command line asks for. -/
def Request.ofArguments (environment : Environment) (arguments : List String) :
    Except Refusal Request := do
  let environmentDir := environment.value? projectDirVariable
  let request ← Level.read environmentDir .program (.start .program) arguments
  return { request with projectDir := request.projectDir <|> environmentDir }

end CodeCensus

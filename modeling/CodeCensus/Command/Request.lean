import CodeCensus.Command.Level
import CodeCensus.Path

/-!
# Requests

What a command line asks for once it has been read, and why it may ask for nothing that can be
run.
-/

namespace CodeCensus

/-- What the program does. -/
inductive Command
  /-- Shows which commands there are. -/
  | overview
  /-- Scans a project and draws its tree. -/
  | scan (directory : Option String)
  /-- Scans a project, runs an event script on it and draws the tree that results. -/
  | replay (script : String) (directory : Option String) (verbose : Bool)
  /-- Scans a project and audits its counters. -/
  | check (directory : Option String)
  /-- Shows the settings of a project. -/
  | showSettings
  /-- Shows where the settings of a project come from. -/
  | showSettingsPaths
  /-- Shows what a shell completes the first word with. -/
  | completion (shell : Shell)
deriving DecidableEq, Repr

/-- A command, and the project directory that flags or the environment name. -/
structure Request where
  command : Command
  projectDir : Option String
deriving DecidableEq, Repr

/-- Why a command line leads to no command. The first three ask for an explanation. -/
inductive Refusal
  | help
  | version
  | helpForMissingCommand
  | missingCommand
  | unknownCommand
  | unknownArgument
  | missingArgument
  | invalidValue
  | tooManyValues
  /-- A flag that may be given once was given again. -/
  | conflict
deriving DecidableEq, Repr

/-- The commands with their arguments. -/
def overview : String :=
  "Commands, after any of -d and -C DIR:\n" ++
  "  scan [DIR]                 scan a project and draw its tree\n" ++
  "  replay [-v] SCRIPT [DIR]   run an event script on a scanned project\n" ++
  "  check [DIR]                audit the counters of a scanned project\n" ++
  "  config show                show the settings\n" ++
  "  config path                show where the settings come from\n" ++
  "  completion SHELL           show what completes the first word"

/-- The exit code of a refusal: help and version that were asked for are no failure. -/
def Refusal.exitCode : Refusal → Nat
  | .help => 0
  | .version => 0
  | _ => 2

/-- The text of a refusal. -/
def Refusal.message : Refusal → String
  | .help => overview
  | .version => "version 0.1.0"
  | .helpForMissingCommand => overview
  | .missingCommand => "a command is missing"
  | .unknownCommand => "there is no such command"
  | .unknownArgument => "an argument is unknown"
  | .missingArgument => "an argument is missing"
  | .invalidValue => "a value is missing or not accepted"
  | .tooManyValues => "a flag takes no value"
  | .conflict => "a flag was given twice"

/-- The directory that a command names by itself. -/
def Command.directory? : Command → Option String
  | .scan directory => directory
  | .replay _ directory _ => directory
  | .check directory => directory
  | _ => none

/-- The project of a request: the directory that the command names, else the one that flags or the
environment name, else the working directory. -/
def Request.project (request : Request) (working : Path) : Path :=
  match request.command.directory? <|> request.projectDir with
  | some directory => ⟨directory⟩
  | none => working

end CodeCensus

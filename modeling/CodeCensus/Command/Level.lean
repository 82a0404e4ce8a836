/-!
# Levels of a command line

A command line is read level by level: the program itself, a command, and for the settings a command
below that one. Every level knows its flags, the values that stand without a flag, and the
commands below it. This module holds that knowledge only; how arguments are read lies elsewhere.
-/

namespace CodeCensus

/-- The program, or one of its commands. -/
inductive Level
  | program
  | scan
  | replay
  | check
  | config
  | configShow
  | configPath
  | completion
deriving DecidableEq, Repr

/-- What may be said with a dash. -/
inductive Flag
  | help
  | version
  | debug
  | projectDir
  | verbose
deriving DecidableEq, Repr

/-- What may be said without a dash. -/
inductive Slot
  | script
  | directory
  | shell
deriving DecidableEq, Repr

/-- A shell that completes command lines. -/
inductive Shell
  | bash
  | elvish
  | fish
  | powershell
  | zsh
deriving DecidableEq, Repr

/-- The shell of a name. -/
def Shell.ofName? : String → Option Shell
  | "bash" => some .bash
  | "elvish" => some .elvish
  | "fish" => some .fish
  | "powershell" => some .powershell
  | "zsh" => some .zsh
  | _ => none

/-- What a word asks for where a command may stand. -/
inductive Selection
  /-- An explanation of the commands named by the words that follow. -/
  | help
  | command (level : Level)
deriving DecidableEq, Repr

namespace Level

/-- The commands below a level, by name. -/
def commands : Level → List (String × Level)
  | .program =>
    [("scan", .scan), ("replay", .replay), ("check", .check), ("config", .config),
      ("completion", .completion)]
  | .config => [("show", .configShow), ("path", .configPath)]
  | _ => []

/-- The values that stand without a flag, in order. -/
def slots : Level → List Slot
  | .scan => [.directory]
  | .replay => [.script, .directory]
  | .check => [.directory]
  | .completion => [.shell]
  | _ => []

/-- The flag that one letter stands for. -/
def shortFlag? (level : Level) : Char → Option Flag
  | 'h' => some .help
  | 'V' => some .version
  | 'd' => some .debug
  | 'C' => some .projectDir
  | 'v' => if level = .replay then some .verbose else none
  | _ => none

/-- The flag that a word stands for. -/
def longFlag? (level : Level) : String → Option Flag
  | "help" => some .help
  | "version" => some .version
  | "debug" => some .debug
  | "project-dir" => some .projectDir
  | "verbose" => if level = .replay then some .verbose else none
  | _ => none

/-- What a word asks for in the place of a command. A level without commands has no help for
them either. -/
def select? (level : Level) (word : String) : Option Selection :=
  if level.commands.isEmpty then none
  else if word = "help" then some .help
  else (level.commands.lookup word).map .command

end Level

end CodeCensus

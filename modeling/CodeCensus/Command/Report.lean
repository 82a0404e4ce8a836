import CodeCensus.Environment
import CodeCensus.Project.Failure

/-!
# Reports

A command reports lines, warnings and a result. Colours are put around marks and headers only when
the report is shown.
-/

namespace CodeCensus

/-- A colour of the terminal, with its weight. -/
inductive Ink
  | green
  | red
  | yellow
  | boldCyan
  | boldRed
deriving DecidableEq, Repr

/-- The number that switches an ink on. -/
def Ink.code : Ink → String
  | .green => "32"
  | .red => "31"
  | .yellow => "33"
  | .boldCyan => "1;36"
  | .boldRed => "1;31"

/-- A text in an ink, if colours are wanted. -/
def Ink.paint (ink : Ink) (colored : Bool) (text : String) : String :=
  if colored then "\x1b[" ++ ink.code ++ "m" ++ text ++ "\x1b[0m" else text

/-- Whether an environment wants colours: a demand for them counts first, then a refusal, then
whether a terminal reads the output. A variable demands or allows what it says unless its value is
0. -/
def Environment.wantsColor (environment : Environment) (terminal : Bool) : Bool :=
  let isOn (name : String) (absent : Bool) := ((environment.value? name).map (· != "0")).getD absent
  if isOn "CLICOLOR_FORCE" false then true
  else if (environment.value? "NO_COLOR").isSome then false
  else isOn "CLICOLOR" true && terminal

/-- A line of a report. -/
inductive ReportLine
  | plain (text : String)
  /-- A line below a header. -/
  | detail (text : String)
  | header (text : String)
  | success (text : String)
  | failure (text : String)
deriving DecidableEq, Repr

/-- The text of a line. -/
def ReportLine.show (colored : Bool) : ReportLine → String
  | .plain text => text
  | .detail text => "  " ++ text
  | .header text => Ink.boldCyan.paint colored text
  | .success text => Ink.green.paint colored "✓" ++ " " ++ text
  | .failure text => "  " ++ Ink.red.paint colored "✗" ++ " " ++ text

/-- What a command reports. -/
structure Report where
  lines : List ReportLine
  warnings : List String
  result : Except Failure Unit

namespace Report

/-- A report of lines without a failure. -/
def ofLines (lines : List ReportLine) : Report := ⟨lines, [], .ok ()⟩

/-- A report of a failure alone. -/
def ofFailure (failure : Failure) : Report := ⟨[], [], .error failure⟩

/-- What goes to the standard output. -/
def output (colored : Bool) (report : Report) : String :=
  String.join (report.lines.map fun line => line.show colored ++ "\n")

/-- What goes to the standard error: the warnings, and the failure if there is one. -/
def errors (colored : Bool) (report : Report) : String :=
  let warnings := report.warnings.map fun text =>
    Ink.yellow.paint colored "Warning" ++ ": " ++ text ++ "\n"
  match report.result with
  | .ok _ => String.join warnings
  | .error failure =>
    String.join warnings ++ Ink.boldRed.paint colored "error" ++ ": " ++ failure.message ++ "\n"

/-- The exit code of a report. -/
def exitCode (report : Report) : Nat :=
  match report.result with
  | .ok _ => 0
  | .error failure => failure.exitCode

end Report

end CodeCensus

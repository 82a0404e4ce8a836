import CodeCensus.Forest.Basic
import CodeCensus.Path

/-!
# Failures

Why a request to a project, a script or the command line fails, with its text and its exit code.
-/

namespace CodeCensus

/-- Why a request fails. -/
inductive Failure
  /-- The tree refuses a mutation. -/
  | tree (cause : TreeError)
  | projectNotFound (path : Path)
  | notADirectory (path : Path)
  | config (message : String)
  | operation (context : String)
  | io (context : String)
  | eventScript (path : Path) (message : String)
  /-- So many branches have counters that disagree with their children. -/
  | inconsistent (branches : Nat)
deriving DecidableEq, Repr

namespace Failure

/-- The text of a failure. -/
def message : Failure → String
  | .tree cause => cause.message
  | .projectNotFound path => "project directory not found: " ++ path.text
  | .notADirectory path => "not a directory: " ++ path.text
  | .config message => "config error: " ++ message
  | .operation context => "operation failed: " ++ context
  | .io context => "I/O error: " ++ context
  | .eventScript path message => "invalid event script " ++ path.text ++ ": " ++ message
  | .inconsistent branches => toString branches ++ " branch(es) with inconsistent counters"

/-- The exit code of a failure: 65 for bad data, 66 for missing input, 70 for a broken contract, 74
for input and output, 78 for configuration. -/
def exitCode : Failure → Nat
  | .tree _ => 70
  | .projectNotFound _ => 66
  | .notADirectory _ => 66
  | .config _ => 78
  | .operation _ => 74
  | .io _ => 74
  | .eventScript _ _ => 65
  | .inconsistent _ => 65

end Failure

end CodeCensus

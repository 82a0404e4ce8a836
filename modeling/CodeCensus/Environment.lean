import CodeCensus.Text.Split

/-!
# Environment variables

An environment gives variables values, in the order in which they were set. Beside them stands the
home directory of the user's account, which counts where no variable names a home directory.
-/

namespace CodeCensus

/-- What surrounds a run of the program. -/
structure Environment where
  /-- The variables with their values. -/
  bindings : List (String × String)
  /-- The home directory of the user's account, if there is one. -/
  accountHome : Option String
deriving DecidableEq, Repr

namespace Environment

/-- The value of a variable, found by the text of its assignment. So a name may go on past the first
equals sign of an assignment. The empty name has no value. -/
def value? (environment : Environment) (name : String) : Option String :=
  if name.isEmpty then none
  else
    environment.bindings.findSome? fun (known, value) =>
      ((name ++ "=").toList.isPrefixOf? (known ++ "=" ++ value).toList).map String.ofList

/-- The variable that an assignment with an equals sign makes. -/
def ofAssignment? (assignment : List Char) : Option (String × String) :=
  match assignment.dropWhile (· != '=') with
  | _ :: value => some (String.ofList (assignment.takeWhile (· != '=')), String.ofList value)
  | [] => none

/-- The variables in a text of assignments, each ended by a null character. -/
def variablesOf (block : String) : List (String × String) :=
  (Text.splitAll '\x00' block.toList).filterMap ofAssignment?

/-- The home directory of a user in a text of accounts, one account to a line. Colons divide the
parts of an account: the third is the number of its user, the sixth its home directory. -/
def accountHome? (accounts user : String) : Option String :=
  let parted := (Text.splitAll '\n' accounts.toList).map (Text.splitAll ':')
  let account := parted.find? fun parts => parts[2]? = some user.toList
  ((account.bind fun parts => parts[5]?).filter fun home => !home.isEmpty).map String.ofList

/-- The home directory: the one that a variable names, unless its value is empty, else the one of
the account. -/
def home? (environment : Environment) : Option String :=
  ((environment.value? "HOME").filter fun home => !home.isEmpty) <|> environment.accountHome

end Environment

end CodeCensus

import CodeCensus.Decimal.Spelled

/-!
# Paths to the parts of settings

The name of a variable can lead into the parts of a setting: a name, then further names behind
dots and numbers of items in brackets. A number with a minus sign counts from the end; spaces
and tabs around it say nothing, but spaces in names belong to them. A text of any other form is no
path.
-/

namespace CodeCensus

open CodeCensus.Text

/-- A step from a value to one of its parts. -/
inductive VariableStep
  | key (name : String)
  | item (index : Int)
deriving DecidableEq, Repr

namespace VariableStep

/-- Characters of names in paths. -/
def isKeyChar (c : Char) : Bool :=
  isAsciiLetter c || isAsciiDigit c || c == ' ' || c == '_' || c == '-'

/-- The number of an item, which fits a signed 64-bit word, and the text after its bracket. -/
def readIndex? (text : List Char) : Option (Int × List Char) :=
  let spaced := skipSpace text
  let sign := if spaced.head? = some '-' then ['-'] else []
  let unsigned := spaced.drop sign.length
  match skipSpace (unsigned.dropWhile isAsciiDigit) with
  | ']' :: rest => do
    let index ← Decimal.word? (sign ++ unsigned.takeWhile isAsciiDigit)
    return (index, rest)
  | _ => none

/-- The steps that a text names, at most the given number. -/
def readSteps? : Nat → List Char → Option (List VariableStep)
  | _, [] => some []
  | 0, _ => none
  | steps + 1, '.' :: text =>
    let name := text.takeWhile isKeyChar
    if name.isEmpty then none
    else do
      let more ← readSteps? steps (text.dropWhile isKeyChar)
      return .key (String.ofList name) :: more
  | steps + 1, '[' :: text => do
    let (index, rest) ← readIndex? text
    let more ← readSteps? steps rest
    return .item index :: more
  | _, _ => none

/-- The steps of a path, from the top of all settings. -/
def readPath? (path : String) : Option (List VariableStep) :=
  readSteps? (path.length + 1) ('.' :: path.toList)

end VariableStep

end CodeCensus

import CodeCensus.Environment
import CodeCensus.Text.Character

/-!
# Expanding variables in paths

A tilde at the front, alone or before a slash, stands for the home directory. A dollar sign before a
name, or before a name in braces, stands for the value of that variable; in braces a default may
follow after a colon and a dash. Two dollar signs stand for one. A path that names a variable
without a value or default stays as it is.
-/

namespace CodeCensus.Path

open CodeCensus.Text

/-- Characters of the names of variables without braces. -/
def isVariableChar (c : Char) : Bool :=
  isAlphanumeric c || c == '_'

/-- The text before the first colon and dash, and the text after them. -/
def splitAtDefault : List Char → Option (List Char × List Char)
  | [] => none
  | ':' :: '-' :: rest => some ([], rest)
  | c :: rest => (splitAtDefault rest).map fun (before, after) => (c :: before, after)

/-- The name of a variable in braces, and its default. Without a name in front there is no
default. -/
def nameAndDefault (inside : List Char) : List Char × Option (List Char) :=
  match splitAtDefault inside with
  | some (c :: name, rest) => (c :: name, some rest)
  | _ => (inside, none)

/-- What a dollar sign before a text stands for, and the text after what it took. Missing if a
variable has no value. A brace that nothing closes stands for itself, as does a dollar sign before
any other text. -/
def dollar? (environment : Environment) (text : List Char) : Option (List Char × List Char) :=
  match text with
  | '{' :: inside =>
    match inside.dropWhile (· != '}') with
    | [] => some (['$', '{'], inside)
    | _ :: after =>
      let (name, default?) := nameAndDefault (inside.takeWhile (· != '}'))
      match environment.value? (String.ofList name) with
      | some value => some (value.toList, after)
      | none => default?.map fun value => (value, after)
  | '$' :: after => some (['$'], after)
  | _ =>
    let name := text.takeWhile isVariableChar
    if name.isEmpty then some (['$'], text)
    else
      (environment.value? (String.ofList name)).map fun value =>
        (value.toList, text.dropWhile isVariableChar)

/-- The text with its variables replaced, in at most the given number of steps. Missing if a
variable has no value. -/
def substitute? (environment : Environment) : Nat → List Char → Option (List Char)
  | 0, _ => none
  | _, [] => some []
  | steps + 1, c :: rest =>
    if c = '$' then do
      let (value, after) ← dollar? environment rest
      let more ← substitute? environment steps after
      return value ++ more
    else do
      let more ← substitute? environment steps rest
      return c :: more

/-- Whether a text starts with a tilde. -/
def startsWithTilde (text : List Char) : Bool :=
  text.head? == some '~'

/-- The text with a tilde at its front replaced by the home directory. -/
def expandTilde (environment : Environment) (text : List Char) : List Char :=
  match text with
  | '~' :: rest =>
    if rest.head?.all (· == '/') then
      match environment.home? with
      | some home => home.toList ++ rest
      | none => text
    else
      text
  | _ => text

/-- A path text with its variables and its tilde expanded. A tilde that only a value brought to the
front stays. -/
def expand (environment : Environment) (text : String) : String :=
  let source := text.toList
  match substitute? environment (source.length + 1) source with
  | none => text
  | some substituted =>
    if startsWithTilde substituted && !startsWithTilde source then String.ofList substituted
    else String.ofList (expandTilde environment substituted)

end CodeCensus.Path

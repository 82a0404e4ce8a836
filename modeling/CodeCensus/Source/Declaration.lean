import CodeCensus.Text.Character

/-!
# Type declarations in a header

A type is declared by a keyword, blanks and a name, at the start of a text or after a character
that cannot belong to a word. A header may hold several such places; they are found from left to
right without overlap, and the last one names the type whose body follows.
-/

namespace CodeCensus.Source

open CodeCensus.Text

/-- The keywords that open a type declaration. -/
inductive TypeKeyword
  | classWord
  | interfaceWord
  | enumWord
  | recordWord
deriving DecidableEq, Repr, Inhabited

namespace TypeKeyword

/-- All keywords; none is the beginning of another. -/
def all : List TypeKeyword := [.classWord, .interfaceWord, .enumWord, .recordWord]

/-- The keyword as written. -/
def spelling : TypeKeyword → List Char
  | .classWord => "class".toList
  | .interfaceWord => "interface".toList
  | .enumWord => "enum".toList
  | .recordWord => "record".toList

end TypeKeyword

/-- Characters that may open a name. -/
def isNameStart (c : Char) : Bool :=
  isAsciiLetter c || c == '_' || c == '$'

/-- Characters that may continue a name. -/
def isNamePart (c : Char) : Bool :=
  isWord c || c == '$'

/-- The name at the front of a text, and the text after it. -/
def nameHere? (text : List Char) : Option (List Char × List Char) :=
  match text with
  | c :: _ =>
    if isNameStart c then some (text.takeWhile isNamePart, text.dropWhile isNamePart) else none
  | [] => none

/-- The type keyword at the front of a text, and the text after it. -/
def keywordHere? (text : List Char) : Option (TypeKeyword × List Char) :=
  TypeKeyword.all.findSome? fun keyword =>
    (keyword.spelling.isPrefixOf? text).map fun rest => (keyword, rest)

/-- A declared type: its keyword and its name. -/
structure Declaration where
  keyword : TypeKeyword
  name : List Char
deriving DecidableEq, Repr

/-- The declaration at the front of a text, and the text after it. An at sign may stand directly
before the keyword. -/
def declarationHere? (text : List Char) : Option (Declaration × List Char) := do
  let unmarked := if text.head? = some '@' then text.tail else text
  let (keyword, spaced) ← keywordHere? unmarked
  if spaced.head?.any isBlank then
    let (name, rest) ← nameHere? (trimFront spaced)
    return (⟨keyword, name⟩, rest)
  else
    none

/-- Characters after which a declaration may start. -/
def separates (c : Char) : Bool :=
  !(isNamePart c || c == '@')

/-- The declarations that start after a separating character, from left to right. The number
counts the characters still taken by the declaration found last. -/
def declarationsAfter : Nat → List Char → List Declaration
  | _, [] => []
  | taken + 1, _ :: rest => declarationsAfter taken rest
  | 0, c :: rest =>
    if separates c then
      match declarationHere? rest with
      | some (declaration, after) =>
        declaration :: declarationsAfter (rest.length - after.length) rest
      | none => declarationsAfter 0 rest
    else
      declarationsAfter 0 rest

/-- All declarations in a header, from left to right. -/
def declarations (header : List Char) : List Declaration :=
  match declarationHere? header with
  | some (declaration, after) => declaration :: declarationsAfter 0 after
  | none => declarationsAfter 0 header

/-- The declaration that names the type whose body follows the header. -/
def lastDeclaration? (header : List Char) : Option Declaration :=
  (declarations header).getLast?

end CodeCensus.Source

import CodeCensus.Fault
import CodeCensus.Source.TypeBody

/-!
# Methods of a type body

A method is a name followed by a parameter list, where the text before the name can end a type, a
modifier, an annotation or another member, and the text after the parameter list opens a body,
ends the member, or starts a `throws` or `default` clause. Texts that lie before a point are kept
from right to left, so that looking back is looking at the head.
-/

namespace CodeCensus.Source

open CodeCensus.Text

/-- A name followed by an opening parenthesis, with the text on both sides. -/
structure Call where
  /-- The text before the name, from right to left. -/
  behind : List Char
  name : List Char
  /-- The text after the opening parenthesis. -/
  ahead : List Char
deriving DecidableEq, Repr

/-- The calls of a text from left to right without overlap. The first argument is the text already
passed, the number counts the characters left of the name found last: a part of a name is no name
of a call of its own. -/
def callsFrom : List Char → Nat → List Char → List Call
  | _, _, [] => []
  | behind, inName + 1, c :: rest => callsFrom (c :: behind) inName rest
  | behind, 0, c :: rest =>
    match nameHere? (c :: rest) with
    | none => callsFrom (c :: behind) 0 rest
    | some (name, after) =>
      let later := callsFrom (c :: behind) (name.length - 1) rest
      match trimFront after with
      | '(' :: ahead => ⟨behind, name, ahead⟩ :: later
      | _ => later

/-- The calls of a text, from left to right. -/
def calls (text : List Char) : List Call :=
  callsFrom [] 0 text

/-- Words that look like a method name before a parenthesis and never are one. -/
def reservedNames : List (List Char) :=
  ["if", "for", "while", "switch", "catch", "synchronized", "return", "new", "this", "super",
    "throw", "try"].map String.toList ++ TypeKeyword.all.map TypeKeyword.spelling

/-- Letters and numerals of every script, the underscore and the dollar sign. -/
def isWordLetter (c : Char) : Bool :=
  isAlphanumeric c || c == '_' || c == '$'

/-- The word that ends a text, and the text before it. -/
structure TrailingWord where
  /-- The text before the word, from right to left. -/
  behind : List Char
  word : List Char
deriving DecidableEq, Repr

/-- The word that ends a text, blanks aside; missing if the text ends otherwise. The text is cut one
byte after the start of the character before the word, which is a fault if that character takes
several bytes. -/
def trailingWord? (behind : List Char) : Except Fault (Option TrailingWord) :=
  let text := trimFront behind
  let word := (text.takeWhile isWordLetter).reverse
  let before := text.dropWhile isWordLetter
  if before.head?.all isSingleByte then
    .ok (if word.isEmpty then none else some ⟨before, word⟩)
  else
    .error .splitCharacter

/-- Whether the text before a name lets the name be declared there: it is empty, it ends a member,
a type or an annotation, or it ends with a word other than `new` that does not name an
annotation. -/
def admitsDeclaration (behind : List Char) : Except Fault Bool :=
  match trimFront behind with
  | [] => .ok true
  | c :: rest =>
    if c = ';' ∨ c = '}' ∨ c = '>' ∨ c = ']' then .ok true
    else if c = ')' then
      match rest.dropWhile (· != '(') with
      | [] => .ok false
      | _ :: beforeParenthesis => do
        let word? ← trailingWord? beforeParenthesis
        return word?.any fun word => word.behind.head? == some '@'
    else do
      let word? ← trailingWord? (c :: rest)
      return word?.any fun word => word.word != "new".toList && word.behind.head? != some '@'

/-- The text after the parenthesis that closes a list already opened, with so many inner
parentheses open. -/
def afterClosing? : Nat → List Char → Option (List Char)
  | _, [] => none
  | inner, '(' :: rest => afterClosing? (inner + 1) rest
  | 0, ')' :: rest => some rest
  | inner + 1, ')' :: rest => afterClosing? inner rest
  | inner, _ :: rest => afterClosing? inner rest

/-- Whether a text continues a declaration after its parameter list. -/
def continuesDeclaration (text : List Char) : Bool :=
  let rest := trimFront text
  [['{'], [';'], "throws".toList, "default".toList].any (·.isPrefixOf rest)

/-- The method that a call declares, if it declares one. -/
def Call.method? (call : Call) : Except Fault (Option (List Char)) :=
  if reservedNames.contains call.name then .ok none
  else do
    if ← admitsDeclaration call.behind then
      match afterClosing? 0 call.ahead with
      | some rest => return if continuesDeclaration rest then some call.name else none
      | none => return none
    else
      return none

/-- The names of the methods declared in a text, in order. -/
def methodsIn (text : List Char) : Except Fault (List (List Char)) := do
  let methods ← (calls text).mapM Call.method?
  return methods.filterMap id

/-- The part of a body that declares members. The constants of an enumeration come first and look
like calls; its members start after the first semicolon. -/
def TypeBody.members (type : TypeBody) : List Char :=
  match type.declaration.keyword with
  | .enumWord => (type.body.dropWhile (· != ';')).tail
  | _ => type.body

/-- The names of the methods declared directly in a type, in order. -/
def TypeBody.methods (type : TypeBody) : Except Fault (List (List Char)) :=
  methodsIn type.members

end CodeCensus.Source

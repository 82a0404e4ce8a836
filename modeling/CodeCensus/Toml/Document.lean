import CodeCensus.Toml.Number

/-!
# TOML documents

A document is a list of lines: headers, which name the table that the next lines belong to, and
keys with values. Lines are read first and then entered into tables one after the other; a line
that contradicts an earlier one has no place, and the document is refused.
-/

namespace CodeCensus.Toml

open CodeCensus.Text (skipSpace)

/-- Nesting of arrays and inline tables, and the length of a dotted key, stay below this. -/
def nestingLimit : Nat := 80

/-! ### Entering lines into tables -/

/-- Changes the table that a path leads to, starting in a table of which is told whether it came
from a dotted key. Tables on the way are made as needed; a dotted path does not enter tables that
have a header. The last element stands for an array that headers append to. -/
def descend? (byDots : Bool) (change : Bool → Entries → Option Entries) :
    List String → Bool → Entries → Option Entries
  | [], isDotted, entries => change isDotted entries
  | key :: path, _, entries =>
    match entries.lookup key with
    | none => do
      let inner ← descend? byDots change path byDots []
      return entries.put key (.table (if byDots then .dotted else .implied) inner)
    | some (.table origin inner) =>
      if origin = .inline ∨ (byDots = true ∧ origin = .header) then none
      else do
        let changed ← descend? byDots change path (origin == .dotted) inner
        return entries.put key (.table origin changed)
    | some (.array true items) =>
      match items.getLast? with
      | some (.table origin inner) => do
        let changed ← descend? byDots change path false inner
        return entries.put key (.array true (items.dropLast ++ [.table origin changed]))
      | _ => none
    | some _ => none

/-- Enters a value under a dotted key of a table. The last table on the way must come from the same
dots, and the key must be new. -/
def enter? (path : List String) (value : Value) (entries : Entries) : Option Entries :=
  match path.getLast? with
  | none => none
  | some key =>
    let way := path.dropLast
    descend? true
      (fun isDotted table =>
        if isDotted = way.isEmpty ∨ (table.lookup key).isSome then none
        else some (table ++ [(key, value)]))
      way false entries

/-- Opens the table that a header names. It must be new or only implied so far. -/
def openTable? (path : List String) (entries : Entries) : Option Entries :=
  match path.getLast? with
  | none => none
  | some key =>
    descend? false
      (fun _ table =>
        match table.lookup key with
        | none => some (table ++ [(key, .table .header [])])
        | some (.table .implied inner) => some (table.put key (.table .header inner))
        | some _ => none)
      path.dropLast false entries

/-- Appends an element to the array that a header names. -/
def openElement? (path : List String) (entries : Entries) : Option Entries :=
  match path.getLast? with
  | none => none
  | some key =>
    descend? false
      (fun _ table =>
        match table.lookup key with
        | none => some (table ++ [(key, .array true [.table .header []])])
        | some (.array true items) =>
          some (table.put key (.array true (items ++ [.table .header []])))
        | some _ => none)
      path.dropLast false entries

/-! ### Reading lines -/

/-- The text without spaces, line ends and comments at its front. The first argument tells whether
it starts inside a comment. -/
def skipFiller : Bool → List Char → List Char
  | _, [] => []
  | _, '\n' :: rest => skipFiller false rest
  | _, '\r' :: '\n' :: rest => skipFiller false rest
  | false, '#' :: rest => skipFiller true rest
  | false, ' ' :: rest => skipFiller false rest
  | false, '\t' :: rest => skipFiller false rest
  | false, c :: rest => c :: rest
  | true, c :: rest => if isPlain c then skipFiller true rest else c :: rest

/-- The text after the end of a line, before which only spaces and a comment may stand. -/
def endLine? (text : List Char) : Option (List Char) :=
  let spaced := skipSpace text
  let rest := if spaced.head? = some '#' then spaced.dropWhile isPlain else spaced
  match rest with
  | [] => some []
  | '\n' :: after => some after
  | '\r' :: '\n' :: after => some after
  | _ => none

/-- Characters of keys that need no quotes. -/
def isBareKey (c : Char) : Bool :=
  Text.isAsciiLetter c || Text.isAsciiDigit c || c == '_' || c == '-'

/-- One part of a key: bare, or quoted on one line. -/
def readKeyPart? (text : List Char) : Option (String × List Char) :=
  match text with
  | '"' :: rest => (readBasic? rest).map fun (name, after) => (String.ofList name, after)
  | '\'' :: rest => (readLiteral? rest).map fun (name, after) => (String.ofList name, after)
  | _ =>
    let name := text.takeWhile isBareKey
    if name.isEmpty then none
    else some (String.ofList name, text.dropWhile isBareKey)

/-- The parts of a dotted key, at most the given number, and the text after the key and the spaces
that follow it. -/
def readKeyParts? : Nat → List Char → Option (List String × List Char)
  | 0, _ => none
  | parts + 1, text => do
    let (name, after) ← readKeyPart? (skipSpace text)
    match skipSpace after with
    | '.' :: rest =>
      let (names, final) ← readKeyParts? parts rest
      return (name :: names, final)
    | rest => return ([name], rest)

/-- A dotted key. -/
def readKey? (text : List Char) : Option (List String × List Char) :=
  readKeyParts? (nestingLimit - 1) text

mutual

/-- A value inside so many arrays and inline tables, read in at most the given number of steps. -/
def readValue? : Nat → Nat → List Char → Option (Value × List Char)
  | 0, _, _ => none
  | steps + 1, nesting, text =>
    match text with
    | [] => none
    | '"' :: _ => (readQuoted? text).map fun (name, after) => (.text (String.ofList name), after)
    | '\'' :: _ => (readQuoted? text).map fun (name, after) => (.text (String.ofList name), after)
    | '[' :: rest =>
      if nesting + 1 < nestingLimit then do
        let (items, after) ← readItems? steps (nesting + 1) rest
        return (.array false items, after)
      else
        none
    | '{' :: rest =>
      if nesting + 1 < nestingLimit then
        match skipSpace rest with
        | '}' :: after => some (.table .inline [], after)
        | inside => do
          let (entries, after) ← readPairs? steps (nesting + 1) [] inside
          return (.table .inline entries, after)
      else
        none
    | 't' :: 'r' :: 'u' :: 'e' :: rest => some (.boolean true, rest)
    | 'f' :: 'a' :: 'l' :: 's' :: 'e' :: rest => some (.boolean false, rest)
    | _ => readNumber? text

/-- The items of an array up to its closing bracket; a comma may follow the last. -/
def readItems? : Nat → Nat → List Char → Option (List Value × List Char)
  | 0, _, _ => none
  | steps + 1, nesting, text =>
    match skipFiller false text with
    | ']' :: after => some ([], after)
    | inside => do
      let (value, afterValue) ← readValue? steps nesting inside
      match skipFiller false afterValue with
      | ']' :: after => return ([value], after)
      | ',' :: rest =>
        let (values, after) ← readItems? steps nesting rest
        return (value :: values, after)
      | _ => none

/-- The keys and values of an inline table up to its closing brace, entered into the given
entries. -/
def readPairs? : Nat → Nat → Entries → List Char → Option (Entries × List Char)
  | 0, _, _, _ => none
  | steps + 1, nesting, entries, text => do
    let (path, afterKey) ← readKey? text
    let spaced ← expect? '=' afterKey
    let (value, afterValue) ← readValue? steps nesting (skipSpace spaced)
    let entered ← enter? path value entries
    match skipSpace afterValue with
    | '}' :: after => return (entered, after)
    | ',' :: rest => readPairs? steps nesting entered rest
    | _ => none

end

/-- What a line of a document says. -/
inductive Line
  | pair (path : List String) (value : Value)
  | table (path : List String)
  | element (path : List String)
deriving Repr

/-- A header or a key with its value, and the text after its line. Values are read in at most the
given number of steps. -/
def readLine? (steps : Nat) (text : List Char) : Option (Line × List Char) :=
  match text with
  | '[' :: '[' :: rest => do
    let (path, afterKey) ← readKey? rest
    let closed ← expect? ']' (← expect? ']' afterKey)
    return (.element path, ← endLine? closed)
  | '[' :: rest => do
    let (path, afterKey) ← readKey? rest
    return (.table path, ← endLine? (← expect? ']' afterKey))
  | _ => do
    let (path, afterKey) ← readKey? text
    let spaced ← expect? '=' afterKey
    let (value, after) ← readValue? steps 0 (skipSpace spaced)
    return (.pair path value, ← endLine? after)

/-- The lines of a text, read in at most the given number of steps, of which a text needs no more
than it has characters. Between lines, spaces, line ends and comments mean nothing; a comment ends
with its line. -/
def readLines? : Nat → List Char → Option (List Line)
  | 0, _ => none
  | steps + 1, text =>
    match skipFiller false text with
    | [] => some []
    | start => do
      let (line, rest) ← readLine? (2 * steps + 2) start
      let lines ← readLines? steps rest
      return line :: lines

/-- Enters lines into tables, below the section that the last header named. -/
def enterLines? : List String → Entries → List Line → Option Entries
  | _, entries, [] => some entries
  | scope, entries, .pair path value :: lines => do
    let entered ← descend? false (fun _ table => enter? path value table) scope false entries
    enterLines? scope entered lines
  | _, entries, .table path :: lines => do
    enterLines? path (← openTable? path entries) lines
  | _, entries, .element path :: lines => do
    enterLines? path (← openElement? path entries) lines

/-- The entries of a document, or nothing if the text is none. A byte order mark may come first. -/
def parse? (document : String) : Option Entries := do
  let text := document.toList
  let unmarked := if text.head? = some '\uFEFF' then text.tail else text
  let lines ← readLines? (unmarked.length + 1) unmarked
  enterLines? [] [] lines

/-- What is said of a text that is no document of the expected form. -/
def parseFailure : String := "TOML parse error"

end CodeCensus.Toml

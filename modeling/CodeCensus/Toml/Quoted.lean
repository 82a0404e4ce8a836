import CodeCensus.Text.Character

/-!
# Quoted texts

TOML quotes a text in four ways: with escapes or literally, on one line or on several. Each reader
starts after the opening quotes and returns the contents and the text after the closing quotes.
Lines of a text on several lines end in a line feed, however they are written.
-/

namespace CodeCensus.Toml

/-- Characters that comments and quoted texts hold as they are: the tab and all that are no control
characters. -/
def isPlain (c : Char) : Bool :=
  c == '\t' || (decide (0x20 ≤ c.toNat) && decide (c.toNat ≠ 0x7F))

/-- The digit that a character stands for in base sixteen. -/
def hexDigit? (c : Char) : Option Nat :=
  if Text.isAsciiDigit c then some (c.toNat - '0'.toNat)
  else if 'a' ≤ c ∧ c ≤ 'f' then some (c.toNat - 'a'.toNat + 10)
  else if 'A' ≤ c ∧ c ≤ 'F' then some (c.toNat - 'A'.toNat + 10)
  else none

/-- The number that digits in base sixteen stand for. -/
def hexNumber? (digits : List Char) : Option Nat :=
  digits.foldlM (fun value c => (hexDigit? c).map (16 * value + ·)) 0

/-- The character with a code point given in base sixteen. -/
def escapedCode? (digits : List Char) : Option Char := do
  let code ← hexNumber? digits
  if h : code.isValidChar then some (Char.ofNatAux code h) else none

/-- The character that a letter after a backslash stands for. -/
def escapedChar? : Char → Option Char
  | 'b' => some '\x08'
  | 't' => some '\t'
  | 'n' => some '\n'
  | 'f' => some '\x0c'
  | 'r' => some '\r'
  | '"' => some '"'
  | '\\' => some '\\'
  | _ => none

/-- A text with escapes on one line. -/
def readBasic? : List Char → Option (List Char × List Char)
  | [] => none
  | '"' :: rest => some ([], rest)
  | '\\' :: 'u' :: a :: b :: c :: d :: rest => do
    let char ← escapedCode? [a, b, c, d]
    let (more, after) ← readBasic? rest
    return (char :: more, after)
  | '\\' :: 'U' :: a :: b :: c :: d :: e :: f :: g :: h :: rest => do
    let char ← escapedCode? [a, b, c, d, e, f, g, h]
    let (more, after) ← readBasic? rest
    return (char :: more, after)
  | '\\' :: c :: rest => do
    let char ← escapedChar? c
    let (more, after) ← readBasic? rest
    return (char :: more, after)
  | c :: rest =>
    if isPlain c && c != '\\' then do
      let (more, after) ← readBasic? rest
      return (c :: more, after)
    else
      none

/-- A literal text on one line. -/
def readLiteral? : List Char → Option (List Char × List Char)
  | [] => none
  | '\'' :: rest => some ([], rest)
  | c :: rest =>
    if isPlain c then do
      let (more, after) ← readLiteral? rest
      return (c :: more, after)
    else
      none

/-- What a backslash at the end of a line has hidden so far. -/
inductive LineJoin
  /-- Nothing. -/
  | none
  /-- Blanks up to the end of the line, which must follow. -/
  | beforeEnd
  /-- The end of the line, and blanks and line ends after it. -/
  | afterEnd
deriving DecidableEq, Repr

/-- A text with escapes on several lines. Three quotes close it, and up to two more directly before
them belong to it. -/
def readBasicLines? : LineJoin → List Char → Option (List Char × List Char)
  | _, [] => none
  | .beforeEnd, ' ' :: rest => readBasicLines? .beforeEnd rest
  | .beforeEnd, '\t' :: rest => readBasicLines? .beforeEnd rest
  | .beforeEnd, '\n' :: rest => readBasicLines? .afterEnd rest
  | .beforeEnd, '\r' :: '\n' :: rest => readBasicLines? .afterEnd rest
  | .beforeEnd, _ :: _ => none
  | .afterEnd, ' ' :: rest => readBasicLines? .afterEnd rest
  | .afterEnd, '\t' :: rest => readBasicLines? .afterEnd rest
  | .afterEnd, '\n' :: rest => readBasicLines? .afterEnd rest
  | .afterEnd, '\r' :: '\n' :: rest => readBasicLines? .afterEnd rest
  | _, '"' :: '"' :: '"' :: '"' :: '"' :: rest => some (['"', '"'], rest)
  | _, '"' :: '"' :: '"' :: '"' :: rest => some (['"'], rest)
  | _, '"' :: '"' :: '"' :: rest => some ([], rest)
  | _, '\\' :: ' ' :: rest => readBasicLines? .beforeEnd rest
  | _, '\\' :: '\t' :: rest => readBasicLines? .beforeEnd rest
  | _, '\\' :: '\n' :: rest => readBasicLines? .afterEnd rest
  | _, '\\' :: '\r' :: '\n' :: rest => readBasicLines? .afterEnd rest
  | _, '\\' :: 'u' :: a :: b :: c :: d :: rest => do
    let char ← escapedCode? [a, b, c, d]
    let (more, after) ← readBasicLines? .none rest
    return (char :: more, after)
  | _, '\\' :: 'U' :: a :: b :: c :: d :: e :: f :: g :: h :: rest => do
    let char ← escapedCode? [a, b, c, d, e, f, g, h]
    let (more, after) ← readBasicLines? .none rest
    return (char :: more, after)
  | _, '\\' :: c :: rest => do
    let char ← escapedChar? c
    let (more, after) ← readBasicLines? .none rest
    return (char :: more, after)
  | _, '\n' :: rest => do
    let (more, after) ← readBasicLines? .none rest
    return ('\n' :: more, after)
  | _, '\r' :: '\n' :: rest => do
    let (more, after) ← readBasicLines? .none rest
    return ('\n' :: more, after)
  | _, c :: rest =>
    if isPlain c && c != '\\' then do
      let (more, after) ← readBasicLines? .none rest
      return (c :: more, after)
    else
      none

/-- A literal text on several lines, closed like one with escapes. -/
def readLiteralLines? : List Char → Option (List Char × List Char)
  | [] => none
  | '\'' :: '\'' :: '\'' :: '\'' :: '\'' :: rest => some (['\'', '\''], rest)
  | '\'' :: '\'' :: '\'' :: '\'' :: rest => some (['\''], rest)
  | '\'' :: '\'' :: '\'' :: rest => some ([], rest)
  | '\n' :: rest => do
    let (more, after) ← readLiteralLines? rest
    return ('\n' :: more, after)
  | '\r' :: '\n' :: rest => do
    let (more, after) ← readLiteralLines? rest
    return ('\n' :: more, after)
  | c :: rest =>
    if isPlain c then do
      let (more, after) ← readLiteralLines? rest
      return (c :: more, after)
    else
      none

/-- The text without a line end at its front. -/
def dropLineEnd : List Char → List Char
  | '\n' :: rest => rest
  | '\r' :: '\n' :: rest => rest
  | text => text

/-- A quoted text of any of the four kinds, from its opening quotes on. A line end directly after
the opening quotes of several lines is left out. -/
def readQuoted? (text : List Char) : Option (List Char × List Char) :=
  match text with
  | '"' :: '"' :: '"' :: rest => readBasicLines? .none (dropLineEnd rest)
  | '"' :: rest => readBasic? rest
  | '\'' :: '\'' :: '\'' :: rest => readLiteralLines? (dropLineEnd rest)
  | '\'' :: rest => readLiteral? rest
  | _ => none

end CodeCensus.Toml

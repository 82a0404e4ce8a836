import CodeCensus.Fault
import CodeCensus.Toml.Quoted

/-!
# Writing TOML texts and arrays

A text is quoted in the plainest way that shows it without escapes: on one line with double quotes,
then with single quotes, then on several lines with three of either. A text that no way shows
without escapes gets double quotes with escapes, on several lines if it has line ends. The choice
counts quotes in a row, each count in one byte.
-/

namespace CodeCensus.Toml

/-- The four ways to quote a text. -/
inductive Quoting
  | basic
  | literal
  | basicLines
  | literalLines
deriving DecidableEq, Repr

/-- The length of the longest run of a character, after so many of them have just been seen. -/
def longestRun (wanted : Char) : Nat → List Char → Nat
  | run, [] => run
  | run, c :: rest =>
    if c = wanted then longestRun wanted (run + 1) rest
    else max run (longestRun wanted 0 rest)

/-- Control characters that no quoting shows as they are. -/
def needsEscape (c : Char) : Bool :=
  !isPlain c && c != '\n'

/-- The way to quote a text. -/
def quotingFor (text : List Char) : Quoting :=
  let escapes := text.any needsEscape
  let backslash := text.contains '\\'
  let lines := text.contains '\n'
  let singles := longestRun '\'' 0 text
  let doubles := longestRun '"' 0 text
  if !escapes && !backslash && doubles == 0 && !lines then .basic
  else if !escapes && singles == 0 && !lines then .literal
  else if !escapes && !backslash && decide (doubles ≤ 2) then .basicLines
  else if !escapes && decide (singles ≤ 2) then .literalLines
  else if lines then .basicLines
  else .basic

/-- A digit in base sixteen, with capitals. -/
def hexDigitChar (digit : Nat) : Char :=
  Char.ofNat (if digit < 10 then '0'.toNat + digit else 'A'.toNat + digit - 10)

/-- The escape of a character by its code in four digits. -/
def escapeCode (c : Char) : List Char :=
  let code := c.toNat
  ['\\', 'u', hexDigitChar (code / 4096 % 16), hexDigitChar (code / 256 % 16),
    hexDigitChar (code / 16 % 16), hexDigitChar (code % 16)]

/-- The contents between double quotes. On several lines, line ends stay and up to two double quotes
in a row do; the number counts those just written. -/
def writeEscaped (onLines : Bool) : Nat → List Char → List Char
  | _, [] => []
  | run, '"' :: rest =>
    if onLines && decide (run < 2) then '"' :: writeEscaped onLines (run + 1) rest
    else '\\' :: '"' :: writeEscaped onLines 0 rest
  | _, c :: rest =>
    let written :=
      if c = '\\' then ['\\', '\\']
      else if c = '\x08' then ['\\', 'b']
      else if c = '\t' then ['\\', 't']
      else if c = '\n' then if onLines then ['\n'] else ['\\', 'n']
      else if c = '\x0c' then ['\\', 'f']
      else if c = '\r' then ['\\', 'r']
      else if needsEscape c then escapeCode c
      else [c]
    written ++ writeEscaped onLines 0 rest

/-- A quoted text. The contents start on a line of their own if they have line ends. -/
def quote (text : List Char) : List Char :=
  let start := if text.contains '\n' then ['\n'] else []
  match quotingFor text with
  | .basic => '"' :: writeEscaped false 0 text ++ ['"']
  | .literal => '\'' :: text ++ ['\'']
  | .basicLines => ['"', '"', '"'] ++ start ++ writeEscaped true 0 text ++ ['"', '"', '"']
  | .literalLines => ['\'', '\'', '\''] ++ start ++ text ++ ['\'', '\'', '\'']

/-- The longest run of quotes that can be counted. -/
def runLimit : Nat := 255

/-- A quoted text. A run of quotes beyond the limit is a fault. -/
def quoteText (text : String) : Except Fault String :=
  let contents := text.toList
  if ['\'', '"'].all fun mark => decide (longestRun mark 0 contents ≤ runLimit) then
    .ok (String.ofList (quote contents))
  else
    .error .quoteOverflow

/-- An array of quoted texts: on one line up to one item, else with a line for each. -/
def layOutArray : List String → String
  | [] => "[]"
  | [item] => "[" ++ item ++ "]"
  | items => "[\n" ++ String.join (items.map fun item => "    " ++ item ++ ",\n") ++ "]"

/-- An array of texts. -/
def writeTexts (items : List String) : Except Fault String := do
  let quoted ← items.mapM quoteText
  return layOutArray quoted

/-- A truth value. -/
def writeBoolean (value : Bool) : String :=
  if value then "true" else "false"

end CodeCensus.Toml

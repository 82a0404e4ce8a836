/-!
# Blanking comments and literals

Braces and parentheses inside comments, strings, text blocks and character literals say nothing
about structure. `blank` leaves code as it is, puts one newline in place of each line comment and
one space in place of each other comment or literal.
-/

namespace CodeCensus.Source

/-- What surrounds the next character of a source text. -/
inductive Region
  /-- Plain code. -/
  | code
  /-- A comment that ends with its line. -/
  | lineComment
  /-- A comment that ends at the first star followed by a slash. -/
  | blockComment
  /-- A string or character literal; it ends at its quote, or at the end of its line. -/
  | quoted (quote : Char)
  /-- A text block that ends with three quotes in a row, of which so many have been seen. -/
  | textBlock (quotes : Nat)
deriving DecidableEq, Repr

/-- Blanks a text whose first character lies in the given region. Each comment or literal is
written when it opens; a backslash in a literal hides the character after it. -/
def blankFrom : Region → List Char → List Char
  | _, [] => []
  | .code, '/' :: '/' :: rest => '\n' :: blankFrom .lineComment rest
  | .code, '/' :: '*' :: rest => ' ' :: blankFrom .blockComment rest
  | .code, '"' :: '"' :: '"' :: rest => ' ' :: blankFrom (.textBlock 0) rest
  | .code, '"' :: rest => ' ' :: blankFrom (.quoted '"') rest
  | .code, '\'' :: rest => ' ' :: blankFrom (.quoted '\'') rest
  | .code, c :: rest => c :: blankFrom .code rest
  | .lineComment, '\n' :: rest => blankFrom .code rest
  | .lineComment, _ :: rest => blankFrom .lineComment rest
  | .blockComment, '*' :: '/' :: rest => blankFrom .code rest
  | .blockComment, _ :: rest => blankFrom .blockComment rest
  | .quoted quote, '\\' :: _ :: rest => blankFrom (.quoted quote) rest
  | .quoted _, '\n' :: rest => blankFrom .code rest
  | .quoted quote, c :: rest => blankFrom (if c = quote then .code else .quoted quote) rest
  | .textBlock _, '\\' :: _ :: rest => blankFrom (.textBlock 0) rest
  | .textBlock quotes, '"' :: rest =>
    blankFrom (if quotes < 2 then .textBlock (quotes + 1) else .code) rest
  | .textBlock _, _ :: rest => blankFrom (.textBlock 0) rest

/-- The source text with its comments and literals blanked. -/
def blank (source : List Char) : List Char :=
  blankFrom .code source

end CodeCensus.Source

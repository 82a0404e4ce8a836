import CodeCensus.Text.Addition
import CodeCensus.Text.Alphabetic
import CodeCensus.Text.Mark
import CodeCensus.Text.Numeral

/-!
# Character classes

The classes of characters that the recogniser and the path expander tell apart. Membership is
decided directly for ASCII and by tables of Unicode properties beyond it. Word characters follow the
sixteenth edition of Unicode, letters and numerals the seventeenth.
-/

namespace CodeCensus.Text

/-- Whether a code point lies in one of the inclusive ranges. -/
def inRanges (ranges : List (Nat × Nat)) (code : Nat) : Bool :=
  ranges.any fun range => decide (range.1 ≤ code) && decide (code ≤ range.2)

/-- ASCII letters. -/
def isAsciiLetter (c : Char) : Bool :=
  (decide ('a' ≤ c) && decide (c ≤ 'z')) || (decide ('A' ≤ c) && decide (c ≤ 'Z'))

/-- ASCII digits. -/
def isAsciiDigit (c : Char) : Bool :=
  decide ('0' ≤ c) && decide (c ≤ '9')

/-- The characters with the property `White_Space`: six in ASCII and nineteen beyond. -/
def blankRanges : List (Nat × Nat) :=
  [(0x9, 0xD), (0x20, 0x20), (0x85, 0x85), (0xA0, 0xA0), (0x1680, 0x1680), (0x2000, 0x200A),
    (0x2028, 0x2029), (0x202F, 0x202F), (0x205F, 0x205F), (0x3000, 0x3000)]

/-- Blank space between tokens. -/
def isBlank (c : Char) : Bool :=
  inRanges blankRanges c.toNat

/-- Connector punctuation and joiners, which words may hold beyond letters, marks and digits. -/
def connectorRanges : List (Nat × Nat) :=
  [(0x200C, 0x200D), (0x203F, 0x2040), (0x2054, 0x2054), (0xFE33, 0xFE34), (0xFE4D, 0xFE4F),
    (0xFF3F, 0xFF3F)]

/-- Word characters: letters, marks, decimal digits, connectors and joiners. -/
def isWord (c : Char) : Bool :=
  if c.toNat < 0x80 then isAsciiLetter c || isAsciiDigit c || c == '_'
  else inRanges alphabeticRanges c.toNat || inRanges markRanges c.toNat ||
    inRanges decimalRanges c.toNat || inRanges connectorRanges c.toNat

/-- Letters and numerals of every script. -/
def isAlphanumeric (c : Char) : Bool :=
  if c.toNat < 0x80 then isAsciiLetter c || isAsciiDigit c
  else inRanges alphabeticRanges c.toNat || inRanges numeralRanges c.toNat ||
    inRanges additionRanges c.toNat

/-- How many bytes a character takes; a character of one byte can be skipped as a byte. -/
def isSingleByte (c : Char) : Bool := decide (c.toNat < 0x80)

/-- The text without spaces and tabs at its front. -/
def skipSpace (text : List Char) : List Char :=
  text.dropWhile fun c => c == ' ' || c == '\t'

/-- The text without blanks at its front. -/
def trimFront (text : List Char) : List Char := text.dropWhile isBlank

end CodeCensus.Text
